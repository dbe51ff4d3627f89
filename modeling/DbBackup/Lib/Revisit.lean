import Mathlib.Data.Finset.Card

/-!
Owns searches of a graph that remember the keys on the way down: nodes with a
list of successors and a key, such as the name of what a node stands for.

Contract: a way down from a node meets a key again exactly if some node that can
be reached leads to another one with its own key (`revisits_iff`). `walks` lists
the ends of all ways down; what is collected along them is what the nodes hold
once each, exactly if no node that holds anything is the end of two ways
(`perm_dedup_iff`).
-/

namespace DbBackup.Lib.Revisit

open Relation

section Search

variable {α κ : Type} [DecidableEq κ] (next : α → List α) (key : α → κ)

def Edge (node child : α) : Prop := child ∈ next node

/-- A way down from the node meets one of the keys, or a key of its own again. -/
inductive Revisits : Finset κ → α → Prop where
  | here {seen : Finset κ} {node : α} (known : key node ∈ seen) : Revisits seen node
  | deep {seen : Finset κ} {node child : α} (isChild : child ∈ next node)
      (deeper : Revisits (insert (key node) seen) child) : Revisits seen node

/-- Two nodes with one key lie behind each other, and the first can be reached. -/
def Cycle (start : α) : Prop :=
  ∃ first again, ReflTransGen (Edge next) start first ∧ TransGen (Edge next) first again ∧
    key again = key first

variable {next key}

variable {seen : Finset κ}

theorem revisits_cases {node : α} : Revisits next key seen node ↔
      key node ∈ seen ∨ ∃ child ∈ next node, Revisits next key (insert (key node) seen) child := by
  constructor
  · rintro (known | ⟨isChild, deeper⟩)
    · exact Or.inl known
    · exact Or.inr ⟨_, isChild, deeper⟩
  · rintro (known | ⟨child, isChild, deeper⟩)
    · exact .here known
    · exact .deep isChild deeper

/-- A key that was seen before can be reached. -/
theorem revisits_of_reach {start last : α} (reach : ReflTransGen (Edge next) start last)
    (known : key last ∈ seen) : Revisits next key seen start := by
  induction reach using ReflTransGen.head_induction_on generalizing seen with
  | refl => exact .here known
  | head isChild _ ih => exact .deep isChild (ih (Finset.mem_insert_of_mem known))

variable {start : α}

theorem revisits_of_cycle (cycle : Cycle next key start) (seen : Finset κ) :
    Revisits next key seen start := by
  obtain ⟨first, again, reach, around, same⟩ := cycle
  induction reach using ReflTransGen.head_induction_on generalizing seen with
  | refl =>
    obtain ⟨child, isChild, back⟩ := TransGen.head'_iff.mp around
    refine .deep isChild (revisits_of_reach back ?_)
    rw [same]
    exact Finset.mem_insert_self _ _
  | head isChild _ ih => exact .deep isChild (ih _)

theorem reach_of_revisits (revisits : Revisits next key seen start) :
    (∃ last, ReflTransGen (Edge next) start last ∧ key last ∈ seen) ∨ Cycle next key start := by
  induction revisits with
  | here known => exact Or.inl ⟨_, .refl, known⟩
  | @deep seen node child isChild _ ih =>
    rcases ih with ⟨last, reach, known⟩ | ⟨first, again, reach, around, same⟩
    · rcases Finset.mem_insert.mp known with isNode | before
      · exact Or.inr ⟨node, last, .refl, TransGen.head' isChild reach, isNode⟩
      · exact Or.inl ⟨last, reach.head isChild, before⟩
    · exact Or.inr ⟨first, again, reach.head isChild, around, same⟩

/-- Without keys from before, a key is met again exactly on a cycle. -/
theorem revisits_iff : Revisits next key ∅ start ↔ Cycle next key start := by
  constructor
  · intro revisits
    rcases reach_of_revisits revisits with ⟨_, _, known⟩ | cycle
    · exact absurd known (Finset.notMem_empty _)
    · exact cycle
  · exact fun cycle => revisits_of_cycle cycle ∅

/-- The ends of the ways down of bounded length, one for each way. -/
def walks (next : α → List α) : Nat → α → List α
  | 0, _ => []
  | depth + 1, node => node :: (next node).flatMap (walks next depth)

/-- Ways that meet no key again are short, so every node is the end of one. -/
theorem mem_walks {next : α → List α} {key : α → κ} {known seen : Finset κ} {start last : α}
    (reach : ReflTransGen (Edge next) start last)
    (inside : ∀ node, ReflTransGen (Edge next) start node → key node ∈ known)
    (within : seen ⊆ known) (once : ¬ Revisits next key seen start) {depth : Nat}
    (deep : known.card < depth + seen.card) : last ∈ walks next depth start := by
  induction reach using ReflTransGen.head_induction_on generalizing seen depth with
  | refl =>
    have small := Finset.card_le_card within
    obtain ⟨smaller, rfl⟩ : ∃ smaller, depth = smaller + 1 := ⟨depth - 1, by omega⟩
    exact List.mem_cons_self
  | @head node child isChild below ih =>
    have small := Finset.card_le_card within
    obtain ⟨smaller, rfl⟩ : ∃ smaller, depth = smaller + 1 := ⟨depth - 1, by omega⟩
    rw [revisits_cases, not_or] at once
    have grown : (insert (key node) seen).card = seen.card + 1 :=
      Finset.card_insert_of_notMem once.1
    refine List.mem_cons_of_mem _ (List.mem_flatMap.mpr ⟨child, isChild, ?_⟩)
    refine ih (fun other reach => inside other (reach.head isChild))
      (Finset.insert_subset (inside node .refl) within) ?_ (by omega)
    exact fun again => once.2 ⟨child, isChild, again⟩

theorem walks_reach {next : α → List α} {depth : Nat} {start last : α}
    (isEnd : last ∈ walks next depth start) : ReflTransGen (Edge next) start last := by
  induction depth generalizing start with
  | zero => exact absurd isEnd List.not_mem_nil
  | succ depth ih =>
    rcases List.mem_cons.mp isEnd with rfl | deeper
    · exact .refl
    · obtain ⟨child, isChild, below⟩ := List.mem_flatMap.mp deeper
      exact (ih below).head isChild

end Search

section Collecting

variable {β γ : Type} [DecidableEq β] (hold : β → List γ)

omit [DecidableEq β] in
theorem flatMap_filter_held (ends : List β) :
    (ends.filter fun x => !(hold x).isEmpty).flatMap hold = ends.flatMap hold := by
  induction ends with
  | nil => rfl
  | cons x rest ih =>
    rw [List.filter_cons]
    cases held : hold x with
    | nil => simp [held, ih]
    | cons first others => simp [held, ih]

/-- What is collected from a list is what its members hold once each, exactly if
no member that holds anything stands there twice. -/
theorem perm_dedup_iff (ends : List β) : (ends.flatMap hold).Perm (ends.dedup.flatMap hold) ↔
      ∀ x ∈ ends, hold x ≠ [] → ends.count x = 1 := by
  constructor
  · intro once x isEnd holds
    obtain ⟨extra, split⟩ := (List.dedup_sublist ends).exists_perm_append
    have lengths := (once.symm.trans (split.flatMap_right hold)).length_eq
    rw [List.flatMap_append, List.length_append] at lengths
    have none : extra.flatMap hold = [] := List.eq_nil_of_length_eq_zero (by omega)
    have notExtra : x ∉ extra := fun isExtra => holds (List.flatMap_eq_nil_iff.mp none x isExtra)
    have known : x ∈ ends.dedup := List.mem_dedup.mpr isEnd
    rw [split.count_eq, List.count_append, List.count_eq_zero_of_not_mem notExtra,
      List.count_eq_one_of_mem (List.nodup_dedup ends) known]
  · intro single
    have nodup : (ends.filter fun x => !(hold x).isEmpty).Nodup := by
      rw [List.nodup_iff_count_le_one]
      intro x
      by_cases kept : x ∈ ends.filter fun x => !(hold x).isEmpty
      · obtain ⟨isEnd, holds⟩ := List.mem_filter.mp kept
        have all : List.count x (ends.filter fun x => !(hold x).isEmpty) = ends.count x :=
          List.count_filter holds
        rw [all, single x isEnd (by simpa using holds)]
      · rw [List.count_eq_zero_of_not_mem kept]
        exact Nat.zero_le _
    have dedupNodup : (ends.dedup.filter fun x => !(hold x).isEmpty).Nodup :=
      (List.nodup_dedup ends).filter _
    have same : (ends.filter fun x => !(hold x).isEmpty).Perm
        (ends.dedup.filter fun x => !(hold x).isEmpty) :=
      (List.perm_ext_iff_of_nodup nodup dedupNodup).mpr fun x => by simp
    rw [← flatMap_filter_held hold ends, ← flatMap_filter_held hold ends.dedup]
    exact same.flatMap_right _

end Collecting

end DbBackup.Lib.Revisit
