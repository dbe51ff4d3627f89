import Mathlib.Data.List.Nodup
import Mathlib.Data.Set.Function

/-!
Owns lists that are collected with one entry for each key: an entry whose key is
already there is dropped.

Contract: what is collected has pairwise different keys, comes from the entries
and has every key of theirs (`collect_spec`). It has the entries themselves, each
once, exactly if no two of them share a key (`collect_exact_iff`).
-/

namespace DbBackup.Lib.FirstByKey

variable {α κ : Type} [DecidableEq κ] (key : α → κ)

def add (out : List α) (entry : α) : List α :=
  if key entry ∈ out.map key then out else out ++ [entry]

def collect (start entries : List α) : List α := entries.foldl (add key) start

theorem collect_append (start one two : List α) :
    collect key start (one ++ two) = collect key (collect key start one) two :=
  List.foldl_append

/-- The entries that are in the list and those that were looked at. -/
structure Collected (entries out : List α) : Prop where
  distinct : (out.map key).Nodup
  from_entries : ∀ x ∈ out, x ∈ entries
  covers : ∀ x ∈ entries, ∃ y ∈ out, key y = key x

variable {key}

theorem collected_add {entries out : List α} (collected : Collected key entries out) (entry : α) :
    Collected key (entries ++ [entry]) (add key out entry) := by
  unfold add
  split
  · next known =>
      obtain ⟨same, isOut, sameKey⟩ := List.mem_map.mp known
      refine ⟨collected.distinct, fun x isIn => ?_, fun x isIn => ?_⟩
      · exact List.mem_append_left _ (collected.from_entries x isIn)
      · rcases List.mem_append.mp isIn with old | new
        · exact collected.covers x old
        · rw [List.mem_singleton.mp new]
          exact ⟨same, isOut, sameKey⟩
  · next fresh =>
      refine ⟨?_, fun x isIn => ?_, fun x isIn => ?_⟩
      · rw [List.map_append, List.nodup_append]
        refine ⟨collected.distinct, List.nodup_singleton _, ?_⟩
        intro k isOut other isNew sameKey
        rw [sameKey, List.mem_singleton.mp isNew] at isOut
        exact fresh isOut
      · rcases List.mem_append.mp isIn with old | new
        · exact List.mem_append_left _ (collected.from_entries x old)
        · exact List.mem_append_right _ new
      · rcases List.mem_append.mp isIn with old | new
        · obtain ⟨y, isOut, sameKey⟩ := collected.covers x old
          exact ⟨y, List.mem_append_left _ isOut, sameKey⟩
        · exact ⟨x, List.mem_append_right _ new, rfl⟩

theorem collected_collect {seen out : List α} (collected : Collected key seen out)
    (entries : List α) : Collected key (seen ++ entries) (collect key out entries) := by
  induction entries generalizing seen out with
  | nil => simpa [collect] using collected
  | cons entry rest ih =>
    have next := ih (collected_add collected entry)
    rw [List.append_assoc] at next
    exact next

omit [DecidableEq κ] in
theorem collected_nil (key : α → κ) : Collected key [] [] where
  distinct := List.Pairwise.nil
  from_entries _ none := absurd none List.not_mem_nil
  covers _ none := absurd none List.not_mem_nil

theorem collect_spec (key : α → κ) (entries : List α) :
    Collected key entries (collect key [] entries) :=
  collected_collect (collected_nil key) entries

/-- Every entry is collected once, exactly if no two entries share a key. -/
theorem collect_exact_iff (key : α → κ) (entries : List α) :
    ((collect key [] entries).Nodup ∧ ∀ x, x ∈ collect key [] entries ↔ x ∈ entries) ↔
      Set.InjOn key {x | x ∈ entries} := by
  have collected := collect_spec key entries
  constructor
  · rintro ⟨-, same⟩ x isIn y isIn' sameKey
    exact List.inj_on_of_nodup_map collected.distinct ((same x).mpr isIn) ((same y).mpr isIn') sameKey
  · intro injective
    refine ⟨List.Nodup.of_map key collected.distinct, fun x => ⟨collected.from_entries x, fun isIn => ?_⟩⟩
    obtain ⟨y, isOut, sameKey⟩ := collected.covers x isIn
    rw [← injective (collected.from_entries y isOut) isIn sameKey]
    exact isOut

end DbBackup.Lib.FirstByKey
