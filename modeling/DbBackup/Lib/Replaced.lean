import DbBackup.Lib.GoString

/-!
Owns which characters of a text `strings.ReplaceAll` replaces.

Contract: `marks` says of every character whether it is kept, begins an occurrence
that is replaced or belongs to one, and the result of the replacement is spelled
from the marks (`replaceChars_eq`). A character that is not kept stands in an
occurrence of the old word, and the occurrence that nothing can overlap from the
left is replaced.
-/

namespace DbBackup.Lib.Replaced

open Lib.GoString

inductive Mark where
  | kept
  | first
  | rest
deriving DecidableEq

/-- Follows `replaceChars`: `skip` counts the characters of a match still to come. -/
def marks (old : List Char) : Nat → List Char → List Mark
  | _, [] => []
  | skip + 1, _ :: text => .rest :: marks old skip text
  | 0, c :: text =>
    if old.isPrefixOf (c :: text) then .first :: marks old (old.length - 1) text
    else .kept :: marks old 0 text

def Mark.spell (new : List Char) (c : Char) : Mark → List Char
  | .kept => [c]
  | .first => new
  | .rest => []

theorem replaceChars_eq (old new : List Char) (skip : Nat) (text : List Char) :
    replaceChars old new skip text =
      (text.zip (marks old skip text)).flatMap fun entry => entry.2.spell new entry.1 := by
  induction text generalizing skip with
  | nil => cases skip <;> rfl
  | cons c text ih =>
    cases skip with
    | succ skip =>
      rw [replaceChars, marks, List.zip_cons_cons, List.flatMap_cons, ih]
      rfl
    | zero =>
      rw [replaceChars, marks]
      split
      · rw [List.zip_cons_cons, List.flatMap_cons, ih]
        rfl
      · rw [List.zip_cons_cons, List.flatMap_cons, ih]
        rfl

theorem length_marks (old : List Char) (skip : Nat) (text : List Char) :
    (marks old skip text).length = text.length := by
  induction text generalizing skip with
  | nil => cases skip <;> rfl
  | cons c text ih =>
    cases skip with
    | succ skip => rw [marks, List.length_cons, ih, List.length_cons]
    | zero =>
      rw [marks]
      split <;> rw [List.length_cons, ih, List.length_cons]

theorem occurrence_of_not_kept {old text : List Char} {skip index : Nat} {mark : Mark}
    (notEmpty : old ≠ []) (marked : (marks old skip text)[index]? = some mark)
    (replaced : mark ≠ .kept) :
    index < skip ∨ ∃ before after, text = before ++ old ++ after ∧ before.length ≤ index ∧
      index < before.length + old.length := by
  induction text generalizing skip index with
  | nil =>
    have none : marks old skip [] = [] := by cases skip <;> rfl
    rw [none] at marked
    exact absurd marked (by simp)
  | cons c text ih =>
    have shifted : ∀ {next : Nat}, (marks old next text)[index - 1]? = some mark →
        index ≠ 0 → index - 1 < next ∨ ∃ before after, c :: text = before ++ old ++ after ∧
          before.length ≤ index ∧ index < before.length + old.length := by
      intro next later positive
      rcases ih later with inside | ⟨before, after, split, low, high⟩
      · exact .inl inside
      · refine .inr ⟨c :: before, after, by rw [split]; rfl, ?_, ?_⟩
        · rw [List.length_cons]
          omega
        · rw [List.length_cons]
          omega
    cases index with
    | zero =>
      cases skip with
      | succ skip => exact .inl (Nat.succ_pos _)
      | zero =>
        rw [marks] at marked
        split at marked
        · rename_i here
          obtain ⟨after, shape⟩ := List.isPrefixOf_iff_prefix.mp here
          exact .inr ⟨[], after, by rw [List.nil_append, shape], Nat.le_refl _,
            by simpa using List.length_pos_iff.mpr notEmpty⟩
        · exact absurd (Option.some.inj marked).symm replaced
    | succ index =>
      cases skip with
      | succ skip =>
        rw [marks, List.getElem?_cons_succ] at marked
        rcases shifted marked (Nat.succ_ne_zero _) with inside | found
        · exact .inl (Nat.succ_lt_succ inside)
        · exact .inr found
      | zero =>
        rw [marks] at marked
        split at marked
        · rename_i here
          rw [List.getElem?_cons_succ] at marked
          rcases shifted marked (Nat.succ_ne_zero _) with inside | found
          · obtain ⟨after, shape⟩ := List.isPrefixOf_iff_prefix.mp here
            refine .inr ⟨[], after, by rw [List.nil_append, shape], Nat.zero_le _, ?_⟩
            rw [List.length_nil]
            omega
          · exact .inr found
        · rw [List.getElem?_cons_succ] at marked
          rcases shifted marked (Nat.succ_ne_zero _) with inside | found
          · exact absurd inside (Nat.not_lt_zero _)
          · exact .inr found

/-- The characters of a match that are passed over. -/
theorem marks_skip (old : List Char) {skip index : Nat} {text : List Char} (inside : index < skip)
    (inText : index < text.length) : (marks old skip text)[index]? = some .rest := by
  induction text generalizing skip index with
  | nil => exact absurd inText (Nat.not_lt_zero _)
  | cons c text ih =>
    cases skip with
    | zero => exact absurd inside (Nat.not_lt_zero _)
    | succ skip =>
      rw [marks]
      cases index with
      | zero => rfl
      | succ index =>
        exact ih (Nat.lt_of_succ_lt_succ inside)
          (Nat.lt_of_succ_lt_succ inText)

/-- The first occurrence, when the text before it lacks the word's first character. -/
theorem replaced_of_first {head : Char} {word before after : List Char} {index : Nat}
    (absent : head ∉ before) (low : before.length ≤ index)
    (high : index < before.length + (head :: word).length) :
    (marks (head :: word) 0 (before ++ (head :: word) ++ after))[index]? ≠ some .kept := by
  induction before generalizing index with
  | nil =>
    have here : (head :: word).isPrefixOf (head :: (word ++ after)) = true :=
      List.isPrefixOf_iff_prefix.mpr ⟨after, rfl⟩
    rw [List.nil_append, List.cons_append, marks, if_pos here]
    cases index with
    | zero => simp
    | succ index =>
      have inside : index < word.length := by
        rw [List.length_nil, Nat.zero_add, List.length_cons] at high
        omega
      rw [List.getElem?_cons_succ, List.length_cons, Nat.add_sub_cancel,
        marks_skip _ inside (by rw [List.length_append]; omega)]
      simp
  | cons c before ih =>
    rw [List.mem_cons, not_or] at absent
    have notHere : (head :: word).isPrefixOf (c :: (before ++ (head :: word) ++ after)) = false := by
      simp [List.isPrefixOf, absent.1]
    rw [List.cons_append, List.cons_append, marks, notHere]
    cases index with
    | zero => exact absurd low (Nat.not_succ_le_zero _)
    | succ index =>
      rw [if_neg Bool.false_ne_true, List.getElem?_cons_succ]
      refine ih absent.2 (Nat.le_of_succ_le_succ low) ?_
      rw [List.length_cons] at high
      omega

end DbBackup.Lib.Replaced
