import Mathlib.Data.List.Basic

/-!
Owns lists whose items carry the number of the part they come from.

Contract: forgetting the marks gives the parts one after the other
(`map_snd_numbered`).
-/

namespace DbBackup.Lib.Marked

variable {ι α : Type}

theorem map_snd_mark (mark : ι) (items : List α) :
    (items.map (mark, ·)).map Prod.snd = items := by
  rw [List.map_map]
  exact List.map_id items

/-- The items of the parts, numbered from a number on. -/
def numbered : Nat → List (List α) → List (Option Nat × α)
  | _, [] => []
  | number, part :: rest => part.map (some number, ·) ++ numbered (number + 1) rest

theorem map_snd_numbered (number : Nat) (parts : List (List α)) :
    (numbered number parts).map Prod.snd = parts.flatten := by
  induction parts generalizing number with
  | nil => rfl
  | cons part rest ih =>
    rw [numbered, List.map_append, ih, map_snd_mark, List.flatten_cons]

/-- Whatever the parts are made of comes at most once to a target, and each target
gets what comes from one part. -/
structure Apart {Target : Type} (writes : List (ι × Target)) : Prop where
  own : ∀ mark one other, (mark, one) ∈ writes → (mark, other) ∈ writes → one = other
  unmixed : ∀ one other target, (one, target) ∈ writes → (other, target) ∈ writes → one = other

/-- With a single target everything has to come from one part. -/
theorem apart_single_iff {Target : Type} (marks : List ι) (target : Target) :
    Apart (marks.map (·, target)) ↔ ∀ one ∈ marks, ∀ other ∈ marks, one = other := by
  constructor
  · intro apart one oneMember other otherMember
    exact apart.unmixed one other target (List.mem_map_of_mem oneMember)
      (List.mem_map_of_mem otherMember)
  · intro same
    refine ⟨fun mark one other oneWrite otherWrite => ?_, fun one other here oneWrite otherWrite => ?_⟩
    · obtain ⟨_, -, oneEq⟩ := List.mem_map.mp oneWrite
      obtain ⟨_, -, otherEq⟩ := List.mem_map.mp otherWrite
      exact (Prod.mk.inj oneEq).2.symm.trans (Prod.mk.inj otherEq).2
    · obtain ⟨first, firstMember, oneEq⟩ := List.mem_map.mp oneWrite
      obtain ⟨second, secondMember, otherEq⟩ := List.mem_map.mp otherWrite
      rw [← (Prod.mk.inj oneEq).1, ← (Prod.mk.inj otherEq).1]
      exact same first firstMember second secondMember

end DbBackup.Lib.Marked
