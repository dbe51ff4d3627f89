import Mathlib.Data.List.Perm.Basic

/-!
Owns the length of the longest path that leads to a node from its ancestors, for a
graph in which each node lists its parents, and what sorting by a rank keeps.

Contract: a node's longest path is one longer than the longest of its parents
(`LongestPath.of_parents`), so it is longer than that of every ancestor
(`LongestPath.lt_of_ancestor`). A stable sort by a rank leaves the items of one rank
in their order (`filter_sortByRank`).
-/

namespace DbBackup.Lib.AncestorDepth

open Relation

variable {α : Type*}

/-! ### Paths -/

section Paths

variable (parents : α → List α)

def Ancestor : α → α → Prop :=
  TransGen fun parent node => parent ∈ parents node

def Acyclic : Prop :=
  ∀ node, ¬ Ancestor parents node node

/-- A rank that falls towards the parents leaves no cycle. -/
theorem Acyclic.of_rank (rank : α → Nat)
    (falls : ∀ node, ∀ parent ∈ parents node, rank parent < rank node) : Acyclic parents := by
  have below : ∀ ancestor node, Ancestor parents ancestor node → rank ancestor < rank node := by
    intro ancestor node isAncestor
    induction isAncestor with
    | single edge => exact falls _ _ edge
    | tail _ edge ih =>
      exact Nat.lt_trans ih (falls _ _ edge)
  exact fun node isAncestor => Nat.lt_irrefl _ (below node node isAncestor)

/-- A path of `length` edges leads up from `node`. -/
inductive Path : Nat → α → Prop where
  | here (node : α) : Path 0 node
  | up {length : Nat} {parent node : α} (edge : parent ∈ parents node)
      (path : Path length parent) : Path (length + 1) node

structure LongestPath (node : α) (length : Nat) : Prop where
  path : Path parents length node
  longest : ∀ other, Path parents other node → other ≤ length

variable {parents}

/-- `length` bounds every parent's longest path plus one, and is reached unless it is zero. -/
theorem LongestPath.of_parents {node : α} {length : Nat} (bounded : ∀ parent ∈ parents node,
      ∃ own, LongestPath parents parent own ∧ own + 1 ≤ length)
    (reached : length = 0 ∨
      ∃ parent ∈ parents node, ∃ own, LongestPath parents parent own ∧ length = own + 1) :
    LongestPath parents node length where
  path := by
    rcases reached with rfl | ⟨parent, edge, own, isOwn, rfl⟩
    · exact .here node
    · exact .up edge isOwn.path
  longest := by
    intro other path
    cases path with
    | here => exact Nat.zero_le length
    | up edge path =>
      obtain ⟨own, isOwn, below⟩ := bounded _ edge
      exact Nat.le_trans (Nat.succ_le_succ (isOwn.longest _ path)) below

theorem Path.of_ancestor {ancestor node : α} {length : Nat}
    (isAncestor : Ancestor parents ancestor node) (path : Path parents length ancestor) :
    ∃ longer, length < longer ∧ Path parents longer node := by
  induction isAncestor with
  | single edge => exact ⟨length + 1, Nat.lt_succ_self length, .up edge path⟩
  | tail _ edge ih =>
    obtain ⟨longer, below, longerPath⟩ := ih
    exact ⟨longer + 1, Nat.lt_succ_of_lt below, .up edge longerPath⟩

theorem LongestPath.lt_of_ancestor {ancestor node : α} {upper lower : Nat}
    (isAncestor : Ancestor parents ancestor node)
    (isUpper : LongestPath parents ancestor upper) (isLower : LongestPath parents node lower) :
    upper < lower := by
  obtain ⟨longer, below, path⟩ := isUpper.path.of_ancestor isAncestor
  exact Nat.lt_of_lt_of_le below (isLower.longest longer path)

end Paths

/-! ### Sorting by a rank -/

section Rank

variable (rank : α → Nat)

/-- A stable sort that compares ranks. -/
def sortByRank (items : List α) : List α :=
  items.mergeSort fun a b => decide (rank a ≤ rank b)

variable (items : List α)

theorem perm_sortByRank : (sortByRank rank items).Perm items :=
  List.mergeSort_perm items _

theorem pairwise_sortByRank :
    (sortByRank rank items).Pairwise fun a b => rank a ≤ rank b := by
  have sorted := @List.pairwise_mergeSort α (fun a b => decide (rank a ≤ rank b))
    (by simpa using fun a b c => Nat.le_trans) (by simpa using fun a b => Nat.le_total _ _) items
  exact sorted.imp fun isLe => of_decide_eq_true isLe

theorem filter_sortByRank (level : Nat) :
    (sortByRank rank items).filter (fun item => rank item = level) =
      items.filter fun item => rank item = level := by
  have levelSorted : (items.filter fun item => rank item = level).Pairwise
      fun a b => decide (rank a ≤ rank b) = true := by
    rw [List.pairwise_filter]
    refine List.pairwise_of_forall ?_
    intro a b aLevel bLevel
    rw [of_decide_eq_true aLevel, of_decide_eq_true bLevel]
    exact decide_eq_true (Nat.le_refl level)
  have kept : (items.filter fun item => rank item = level).Sublist (sortByRank rank items) :=
    List.sublist_mergeSort (by simpa using fun a b c => Nat.le_trans)
      (by simpa using fun a b => Nat.le_total _ _) levelSorted List.filter_sublist
  have within := kept.filter fun item => decide (rank item = level)
  rw [List.filter_filter] at within
  simp only [Bool.and_self] at within
  refine (within.eq_of_length ?_).symm
  exact ((perm_sortByRank rank items).filter _).length_eq.symm

end Rank

end DbBackup.Lib.AncestorDepth
