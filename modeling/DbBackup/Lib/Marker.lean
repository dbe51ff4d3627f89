import DbBackup.Lib.GoString

/-!
Owns looking for a marker in a text: a word that begins with a character it
holds nowhere else, as `.insertMany` begins with its dot.

Contract: such a marker does not reach across another of those characters, so
it stands in one of the two parts there (`isPiece_append_cons_iff`), and
`strings.Index` finds it right after a name it does not stand in
(`indexOf_append_marker`). What stands before the first marker does not hold
it (`indexOf_take`).
-/

namespace DbBackup.Lib.Marker

open Lib.GoString

section Pieces

variable {α : Type*} {c : α} {word a b : List α}

theorem begins_append_cons_iff (absent : c ∉ word) : word <+: a ++ c :: b ↔ word <+: a := by
  constructor
  · intro begins
    induction a generalizing word with
    | nil =>
      cases word with
      | nil => exact List.nil_prefix
      | cons head tail =>
        rw [List.nil_append, List.cons_prefix_cons] at begins
        exact absurd (List.mem_cons.mpr (.inl begins.1.symm)) absent
    | cons x a ih =>
      cases word with
      | nil => exact List.nil_prefix
      | cons head tail =>
        rw [List.cons_append, List.cons_prefix_cons] at begins
        rw [List.mem_cons, not_or] at absent
        exact List.cons_prefix_cons.mpr ⟨begins.1, ih absent.2 begins.2⟩
  · intro begins
    exact begins.trans (List.prefix_append _ _)

theorem isPiece_append_cons_iff (absent : c ∉ word) :
    c :: word <:+: a ++ c :: b ↔ c :: word <:+: a ∨ c :: word <:+: c :: b := by
  induction a with
  | nil => simp
  | cons x a ih =>
    have here : c :: word <+: x :: (a ++ c :: b) ↔ c :: word <+: x :: a := by
      rw [List.cons_prefix_cons, List.cons_prefix_cons, begins_append_cons_iff absent]
    rw [List.cons_append, List.infix_cons_iff, List.infix_cons_iff, ih, here,
      or_assoc]

/-- A word does not reach across a character it lacks. -/
theorem isPiece_append_other_iff (absent : c ∉ word) (notEmpty : word ≠ []) :
    word <:+: a ++ c :: b ↔ word <:+: a ∨ word <:+: b := by
  induction a with
  | nil =>
    have notHere : ¬ word <+: c :: b := fun begins =>
      notEmpty (List.prefix_nil.mp ((begins_append_cons_iff (a := []) absent).mp begins))
    rw [List.nil_append, List.infix_cons_iff, List.infix_nil]
    simp [notHere, notEmpty]
  | cons x a ih =>
    have here : word <+: x :: (a ++ c :: b) ↔ word <+: x :: a :=
      begins_append_cons_iff (a := x :: a) absent
    rw [List.cons_append, List.infix_cons_iff, List.infix_cons_iff, ih, here,
      or_assoc]

theorem isPiece_cons_self_iff : c :: word <:+: c :: b ↔ word <+: b ∨ c :: word <:+: b := by
  rw [List.infix_cons_iff, List.cons_prefix_cons]
  simp

end Pieces

section Index

variable {c : Char} {word needle text name : List Char}

theorem indexOf_append_marker (absent : c ∉ word) (free : ¬ c :: word <:+: name)
    (rest : List Char) : indexOf (c :: word) (name ++ c :: word ++ rest) = some name.length := by
  induction name with
  | nil =>
    rw [List.nil_append, List.cons_append, indexOf, if_pos]
    · rfl
    · rw [List.isPrefixOf_iff_prefix, List.cons_prefix_cons]
      exact ⟨rfl, List.prefix_append _ _⟩
  | cons x name ih =>
    rw [List.infix_cons_iff, not_or] at free
    have notHere : (c :: word).isPrefixOf (x :: (name ++ c :: word ++ rest)) = false := by
      rw [Bool.eq_false_iff, Ne, List.isPrefixOf_iff_prefix, List.cons_prefix_cons,
        List.append_assoc, List.cons_append, begins_append_cons_iff absent,
        ← List.cons_prefix_cons]
      exact free.1
    rw [List.cons_append, List.cons_append, indexOf, notHere, ih free.2]
    rfl

theorem indexOf_take {index : Nat} (notEmpty : needle ≠ [])
    (found : indexOf needle text = some index) : ¬ needle <:+: text.take index := by
  induction text generalizing index with
  | nil =>
    rw [List.take_nil, List.infix_nil]
    exact notEmpty
  | cons head tail ih =>
    rw [indexOf] at found
    split at found
    · rw [← Option.some.inj found, List.take_zero, List.infix_nil]
      exact notEmpty
    · rename_i notHere
      obtain ⟨later, foundLater, rfl⟩ := Option.map_eq_some_iff.mp found
      rw [List.take_succ_cons, List.infix_cons_iff, not_or]
      refine ⟨?_, ih foundLater⟩
      intro begins
      apply notHere
      rw [List.isPrefixOf_iff_prefix]
      exact begins.trans (List.cons_prefix_cons.mpr ⟨rfl, List.take_prefix _ _⟩)

end Index

end DbBackup.Lib.Marker
