import Mathlib.Algebra.GroupWithZero.Nat
import DbBackup.Lib.GoString

/-!
Owns reading a text line by line, as `bufio.Scanner` and
`bufio.Reader.ReadString('\n')` do: a last line without its newline counts, an
empty rest after the last newline does not.

Its rule is `textLines_joinLines`: lines that hold no newline of their own come
back as they were written.

Owns as well `strings.Split` at newlines, and how trimming a text of several
lines acts on its lines.
-/

set_option linter.all false

namespace DbBackup.Lib.LineScan

open Lib.GoString

def splitLines (cur : List Char) : List Char → List (List Char)
  | [] => if cur = [] then [] else [cur.reverse]
  | c :: rest =>
    if c = '\n' then cur.reverse :: splitLines [] rest else splitLines (c :: cur) rest

def textLines (text : String) : List String :=
  (splitLines [] text.toList).map String.ofList

def joinLines (lines : List String) : String :=
  String.ofList (lines.flatMap fun line => line.toList ++ ['\n'])

def OneLine (text : String) : Prop := '\n' ∉ text.toList

instance (text : String) : Decidable (OneLine text) :=
  inferInstanceAs (Decidable (_ ∉ _))

theorem OneLine.append {first second : String} (firstLine : OneLine first)
    (secondLine : OneLine second) : OneLine (first ++ second) := by
  unfold OneLine at *
  simp [firstLine, secondLine]

theorem splitLines_append (cur line rest : List Char) (oneLine : '\n' ∉ line) :
    splitLines cur (line ++ '\n' :: rest) = (cur.reverse ++ line) :: splitLines [] rest := by
  induction line generalizing cur with
  | nil => simp [splitLines]
  | cons c line ih =>
    have different : c ≠ '\n' := fun same => oneLine (same ▸ List.mem_cons_self)
    have restLine : '\n' ∉ line := fun member => oneLine (List.mem_cons_of_mem _ member)
    rw [List.cons_append, splitLines, if_neg different, ih _ restLine]
    simp

variable {lines : List String}

theorem textLines_joinLines (oneLine : ∀ line ∈ lines, OneLine line) :
    textLines (joinLines lines) = lines := by
  unfold textLines joinLines
  rw [String.toList_ofList]
  induction lines with
  | nil => rfl
  | cons line rest ih =>
    obtain ⟨head, tail⟩ := List.forall_mem_cons.mp oneLine
    rw [List.flatMap_cons, List.append_assoc, List.singleton_append,
      splitLines_append [] _ _ head, List.map_cons, ih tail]
    simp

theorem splitLines_of_oneLine (cur line : List Char) (oneLine : '\n' ∉ line)
    (notEmpty : cur.reverse ++ line ≠ []) : splitLines cur line = [cur.reverse ++ line] := by
  induction line generalizing cur with
  | nil =>
    have something : cur ≠ [] := fun empty => notEmpty (by simp [empty])
    simp [splitLines, something]
  | cons c line ih =>
    have different : c ≠ '\n' := fun same => oneLine (same ▸ List.mem_cons_self)
    have restLine : '\n' ∉ line := fun member => oneLine (List.mem_cons_of_mem _ member)
    rw [splitLines, if_neg different, ih _ restLine (by simp)]
    simp

theorem joinLines_append (first second : List String) :
    joinLines (first ++ second) = joinLines first ++ joinLines second := by
  apply String.toList_injective
  simp [joinLines]

theorem joinLines_concat (lines : List String) (last : String) :
    joinLines (lines ++ [last]) = joinLines lines ++ last ++ "\n" := by
  apply String.toList_injective
  simp [joinLines]

/-- The last line counts without its newline. -/
theorem textLines_joinLines_append {last : String}
    (oneLine : ∀ line ∈ lines, OneLine line) (lastLine : OneLine last) (notEmpty : last ≠ "") :
    textLines (joinLines lines ++ last) = lines ++ [last] := by
  unfold textLines joinLines
  rw [String.toList_append, String.toList_ofList]
  induction lines with
  | nil =>
    have something : last.toList ≠ [] := fun empty =>
      notEmpty (String.toList_injective empty)
    rw [List.flatMap_nil, List.nil_append, splitLines_of_oneLine [] _ lastLine (by simpa)]
    simp
  | cons line rest ih =>
    obtain ⟨head, tail⟩ := List.forall_mem_cons.mp oneLine
    rw [List.flatMap_cons, List.append_assoc, List.append_assoc, List.singleton_append,
      splitLines_append [] _ _ head, List.map_cons, ih tail]
    simp

theorem oneLine_of_mem_textLines {text line : String} (member : line ∈ textLines text) :
    OneLine line := by
  have chars : ∀ cur rest : List Char, '\n' ∉ cur → ∀ part ∈ splitLines cur rest, '\n' ∉ part := by
    intro cur rest noNewline
    induction rest generalizing cur with
    | nil =>
      unfold splitLines
      split
      · simp
      · simpa using noNewline
    | cons c rest ih =>
      unfold splitLines
      split
      · intro part isPart
        rcases List.mem_cons.mp isPart with rfl | inRest
        · simpa using noNewline
        · exact ih [] (by simp) part inRest
      · rename_i notNewline
        refine ih (c :: cur) ?_
        rw [List.mem_cons, not_or]
        exact ⟨fun same => notNewline same.symm, noNewline⟩
  obtain ⟨part, isPart, rfl⟩ := List.mem_map.mp member
  unfold OneLine
  rw [String.toList_ofList]
  exact chars [] _ (by simp) part isPart

/-! ### Trimming -/

/-- A text that begins and ends in something else than blank space. -/
def Firm (text : String) : Prop :=
  text.toList.head?.map isSpace = some false ∧ text.toList.getLast?.map isSpace = some false

instance (text : String) : Decidable (Firm text) :=
  inferInstanceAs (Decidable (_ ∧ _))

variable {text : String}

theorem Firm.ne_empty (firm : Firm text) : text ≠ "" := by
  rintro rfl
  exact absurd firm (by decide)

theorem Firm.hasSuffix_empty {ending : String} (firm : Firm ending) : hasSuffix "" ending = false := by
  by_contra ends
  rw [Bool.not_eq_false, hasSuffix_iff] at ends
  obtain ⟨start, shape⟩ := ends
  have chars := congrArg String.toList shape
  rw [String.toList_append, String.toList_empty] at chars
  exact firm.ne_empty (String.toList_injective (List.append_eq_nil_iff.mp chars.symm).2)

theorem Firm.append {first middle last : String} (firstFirm : Firm first) (lastFirm : Firm last) :
    Firm (first ++ middle ++ last) := by
  obtain ⟨c, begins, _⟩ := Option.map_eq_some_iff.mp firstFirm.1
  obtain ⟨d, ends, _⟩ := Option.map_eq_some_iff.mp lastFirm.2
  have sameHead : (first ++ middle ++ last).toList.head? = first.toList.head? := by
    simp [begins]
  have sameLast : (first ++ middle ++ last).toList.getLast? = last.toList.getLast? := by
    simp [List.getLast?_append, ends]
  unfold Firm
  rw [sameHead, sameLast]
  exact ⟨firstFirm.1, lastFirm.2⟩

private theorem trimSpace_eq {start : String} (firm : Firm start) (rest : String) :
    trimSpace (start ++ rest) =
      start ++ String.ofList (rest.toList.reverse.dropWhile isSpace).reverse := by
  obtain ⟨first, begins, firstText⟩ := Option.map_eq_some_iff.mp firm.1
  obtain ⟨last, ends, lastText⟩ := Option.map_eq_some_iff.mp firm.2
  obtain ⟨tail, headShape⟩ := List.head?_eq_some_iff.mp begins
  obtain ⟨before, lastShape⟩ := List.getLast?_eq_some_iff.mp ends
  apply String.toList_injective
  unfold trimSpace
  rw [String.toList_ofList, String.toList_append, headShape, List.cons_append,
    List.dropWhile_cons_of_neg (by simp [firstText]), ← List.cons_append, ← headShape,
    List.reverse_append, List.dropWhile_append]
  by_cases blank : (rest.toList.reverse.dropWhile isSpace).isEmpty = true
  · rw [if_pos blank, List.isEmpty_iff.mp blank, lastShape, List.reverse_append,
      List.reverse_singleton, List.singleton_append,
      List.dropWhile_cons_of_neg (by simp [lastText])]
    simp [lastShape]
  · rw [if_neg blank]
    simp

/-- Trimming does not reach into a firm start. -/
theorem trimSpace_append {start : String} (firm : Firm start) (rest : String) :
    ∃ kept, trimSpace (start ++ rest) = start ++ kept :=
  ⟨_, trimSpace_eq firm rest⟩

theorem trimSpace_append_blank {start rest : String} (firm : Firm start)
    (blank : ∀ c ∈ rest.toList, isSpace c = true) : trimSpace (start ++ rest) = start := by
  have dropped : rest.toList.reverse.dropWhile isSpace = [] := by
    rw [List.dropWhile_eq_nil_iff]
    intro c member
    exact blank c (List.mem_reverse.mp member)
  rw [trimSpace_eq firm, dropped]
  simp

theorem trimSpace_of_firm (firm : Firm text) : trimSpace text = text := by
  have trimmed := @trimSpace_append_blank text "" firm (by simp)
  simpa using trimmed

theorem trimSpace_blank_append {blanks rest : String}
    (blank : ∀ c ∈ blanks.toList, isSpace c = true) :
    trimSpace (blanks ++ rest) = trimSpace rest := by
  unfold trimSpace
  rw [String.toList_append, List.dropWhile_append_of_pos blank]

theorem trimSpace_append_blanks (text : String) {blanks : String}
    (blank : ∀ c ∈ blanks.toList, isSpace c = true) :
    trimSpace (text ++ blanks) = trimSpace text := by
  have dropped : blanks.toList.reverse.dropWhile isSpace = [] := by
    rw [List.dropWhile_eq_nil_iff]
    intro c member
    exact blank c (List.mem_reverse.mp member)
  unfold trimSpace
  rw [String.toList_append, List.dropWhile_append]
  by_cases allBlank : (text.toList.dropWhile isSpace).isEmpty = true
  · rw [if_pos allBlank, List.isEmpty_iff.mp allBlank, List.dropWhile_eq_nil_iff.mpr blank]
  · rw [if_neg allBlank, List.reverse_append, List.dropWhile_append, dropped]
    simp

theorem trimSpace_append_blank_char (text : String) {c : Char} (blank : isSpace c = true) :
    trimSpace (text ++ String.ofList [c]) = trimSpace text :=
  trimSpace_append_blanks text (by simpa using blank)

theorem trimSpace_eq_empty_iff :
    trimSpace text = "" ↔ ∀ c ∈ text.toList, isSpace c = true := by
  constructor
  · intro empty c member
    unfold trimSpace at empty
    have noChars : ((text.toList.dropWhile isSpace).reverse.dropWhile isSpace).reverse = [] := by
      simpa using congrArg String.toList empty
    rw [List.reverse_eq_nil_iff, List.dropWhile_eq_nil_iff] at noChars
    by_contra solid
    have survives : c ∈ text.toList.dropWhile isSpace := by
      have split := List.takeWhile_append_dropWhile (p := isSpace) (l := text.toList)
      rw [← split] at member
      rcases List.mem_append.mp member with early | late
      · exact absurd (List.all_eq_true.mp List.all_takeWhile c early) solid
      · exact late
    exact solid (noChars c (List.mem_reverse.mpr survives))
  · intro blank
    have trimmed := @trimSpace_blank_append text "" blank
    simpa [trimSpace] using trimmed

/-- What dropping one blank character at either end keeps, trimming keeps. -/
theorem trimSpace_preserves {Holds : List Char → Prop} {text : String}
    (left : ∀ c rest, isSpace c = true → Holds (c :: rest) → Holds rest)
    (right : ∀ start c, isSpace c = true → Holds (start ++ [c]) → Holds start)
    (holds : Holds text.toList) : Holds (trimSpace text).toList := by
  have leftTrimmed : ∀ chars, Holds chars → Holds (chars.dropWhile isSpace) := by
    intro chars
    induction chars with
    | nil => exact id
    | cons c rest ih =>
      intro whole
      by_cases blank : isSpace c = true
      · rw [List.dropWhile_cons_of_pos blank]
        exact ih (left c rest blank whole)
      · rwa [List.dropWhile_cons_of_neg blank]
  have rightTrimmed : ∀ reversed : List Char, Holds reversed.reverse →
      Holds (reversed.dropWhile isSpace).reverse := by
    intro reversed
    induction reversed with
    | nil => exact id
    | cons c rest ih =>
      intro whole
      by_cases blank : isSpace c = true
      · rw [List.dropWhile_cons_of_pos blank]
        rw [List.reverse_cons] at whole
        exact ih (right _ c blank whole)
      · rwa [List.dropWhile_cons_of_neg blank]
  unfold trimSpace
  rw [String.toList_ofList]
  apply rightTrimmed
  rw [List.reverse_reverse]
  exact leftTrimmed _ holds

/-- The text from its end, without the blank space there. -/
def solidEnd (text : String) : List Char := text.toList.reverse.dropWhile isSpace

/-- A text that begins in something else than blank space ends the trimmed text
where it ends the text but for blank space. -/
theorem hasSuffix_trimSpace_iff {text ending : String}
    (begins : ending.toList.head?.map isSpace = some false) :
    hasSuffix (trimSpace text) ending = true ↔ ending.toList.reverse <+: solidEnd text := by
  obtain ⟨first, isFirst, solid⟩ := Option.map_eq_some_iff.mp begins
  obtain ⟨rest, shape⟩ := List.head?_eq_some_iff.mp isFirst
  have split : text.toList = text.toList.takeWhile isSpace ++ text.toList.dropWhile isSpace :=
    List.takeWhile_append_dropWhile.symm
  have blank : ∀ c ∈ text.toList.takeWhile isSpace, isSpace c = true := fun c member =>
    List.mem_takeWhile_imp member
  have reversed : (trimSpace text).toList.reverse =
      (text.toList.dropWhile isSpace).reverse.dropWhile isSpace := by
    unfold trimSpace
    rw [String.toList_ofList, List.reverse_reverse]
  have ends : solidEnd text =
      ((text.toList.dropWhile isSpace).reverse ++ (text.toList.takeWhile isSpace).reverse).dropWhile
        isSpace := by
    unfold solidEnd
    rw [← List.reverse_append, ← split]
  unfold hasSuffix
  rw [List.isSuffixOf_iff_suffix, ← List.reverse_prefix, reversed, ends, List.dropWhile_append]
  split
  · -- The text is blank, so nothing ends it.
    rename_i nothing
    have dropped : (text.toList.takeWhile isSpace).reverse.dropWhile isSpace = [] := by
      rw [List.dropWhile_eq_nil_iff]
      intro c member
      exact blank c (List.mem_reverse.mp member)
    rw [List.isEmpty_iff.mp nothing, dropped]
  · constructor
    · intro isPrefix
      exact isPrefix.trans (List.prefix_append _ _)
    · intro isPrefix
      rcases Nat.lt_or_ge ((text.toList.dropWhile isSpace).reverse.dropWhile isSpace).length
        ending.toList.reverse.length with longer | fits
      · -- Otherwise the first character would be blank.
        obtain ⟨more, isEnding⟩ := List.prefix_of_prefix_length_le (List.prefix_append _ _) isPrefix
          (Nat.le_of_lt longer)
        have notEmpty : more ≠ [] := by
          rintro rfl
          rw [List.append_nil] at isEnding
          rw [isEnding] at longer
          exact Nat.lt_irrefl _ longer
        have last : first ∈ more := by
          have isLast : ending.toList.reverse.getLast? = some first := by
            rw [List.getLast?_reverse, isFirst]
          rw [← isEnding, List.getLast?_append_of_ne_nil _ notEmpty] at isLast
          exact List.mem_of_getLast? isLast
        rw [← isEnding] at isPrefix
        have inBlank := (List.prefix_append_right_inj _).mp isPrefix
        rw [blank first (List.mem_reverse.mp (inBlank.subset last))] at solid
        cases solid
      · exact List.prefix_of_prefix_length_le isPrefix (List.prefix_append _ _) fits

/-- What trimming leaves over is firm. -/
theorem firm_trimSpace (something : trimSpace text ≠ "") : Firm (trimSpace text) := by
  have solid : ∀ chars : List Char, chars.dropWhile isSpace ≠ [] →
      (chars.dropWhile isSpace).head?.map isSpace = some false := by
    intro chars notEmpty
    obtain ⟨c, rest, shape⟩ := List.exists_cons_of_ne_nil notEmpty
    have stops := List.head_dropWhile_not isSpace notEmpty
    simpa [shape] using stops
  have last : (trimSpace text).toList.getLast? =
      ((text.toList.dropWhile isSpace).reverse.dropWhile isSpace).head? := by
    unfold trimSpace
    rw [String.toList_ofList, List.getLast?_reverse]
  have chars : (trimSpace text).toList ≠ [] := fun empty =>
    something (String.toList_injective empty)
  obtain ⟨c, rest, begins⟩ := List.exists_cons_of_ne_nil chars
  obtain ⟨-, after, -, shape⟩ := trimSpace_parts text
  refine ⟨?_, ?_⟩
  · have first := solid text.toList (by simp [shape, begins])
    rw [shape, begins] at first
    rw [begins]
    exact first
  · rw [last]
    refine solid _ fun empty => chars ?_
    unfold trimSpace
    rw [String.toList_ofList, empty, List.reverse_nil]

theorem oneLine_trimSpace (oneLine : OneLine text) : OneLine (trimSpace text) := by
  obtain ⟨before, after, shape, -⟩ := trimSpace_parts text
  unfold OneLine at *
  rw [shape] at oneLine
  simp only [String.toList_append, List.mem_append, not_or] at oneLine
  exact oneLine.1.2

theorem prefix_append_cons_iff {mark : Char} {start first second : List Char}
    (absent : mark ∉ start) : start <+: first ++ (mark :: second) ↔ start <+: first := by
  constructor
  · intro isPrefix
    rcases Nat.lt_or_ge first.length start.length with longer | fits
    · have whole : first ++ [mark] <+: start := by
        refine List.prefix_of_prefix_length_le ⟨second, by simp⟩ isPrefix ?_
        rw [List.length_append]
        exact longer
      exact absurd (whole.subset (by simp)) absent
    · exact List.prefix_of_prefix_length_le isPrefix (List.prefix_append _ _) fits
  · exact fun isPrefix => isPrefix.trans (List.prefix_append _ _)

/-- A text of one line that ends some lines ends the last one that is not blank. -/
theorem hasSuffix_collected {collected line ending : String} (firm : Firm ending)
    (oneLine : OneLine ending) (lines : collected = "" ∨ ∃ text, collected = text ++ "\n") :
    hasSuffix (trimSpace (collected ++ line ++ "\n")) ending =
      hasSuffix (trimSpace (if trimSpace line = "" then collected else line)) ending := by
  have newline : ∀ text : String, trimSpace (text ++ "\n") = trimSpace text := fun text =>
    trimSpace_append_blank_char text (by decide)
  rw [newline]
  split
  · rename_i blank
    rw [trimSpace_append_blanks _ (trimSpace_eq_empty_iff.mp blank)]
  · rename_i solid
    have begins := firm.1
    have rest : line.toList.reverse.dropWhile isSpace ≠ [] := by
      intro empty
      refine solid (trimSpace_eq_empty_iff.mpr fun c member => ?_)
      exact List.dropWhile_eq_nil_iff.mp empty c (List.mem_reverse.mpr member)
    have split : solidEnd (collected ++ line) = solidEnd line ++ collected.toList.reverse := by
      unfold solidEnd
      rw [String.toList_append, List.reverse_append, List.dropWhile_append, if_neg]
      rwa [List.isEmpty_iff]
    rw [Bool.eq_iff_iff, hasSuffix_trimSpace_iff begins, hasSuffix_trimSpace_iff begins, split]
    rcases lines with rfl | ⟨text, rfl⟩
    · simp
    · rw [String.toList_append, List.reverse_append]
      exact prefix_append_cons_iff fun member => oneLine (List.mem_reverse.mp member)

/-! ### Splitting at newlines -/

/-- `strings.Split(text, "\n")`. -/
def splitNewlines (text : String) : List String :=
  (text.toList.splitOn '\n').map String.ofList

theorem splitNewlines_append (first second : String) :
    splitNewlines (first ++ "\n" ++ second) = splitNewlines first ++ splitNewlines second := by
  have chars : (first ++ "\n" ++ second).toList = first.toList ++ '\n' :: second.toList := by
    simp
  unfold splitNewlines
  rw [chars, ← List.map_append, List.splitOn_eq_splitOnP, List.splitOn_eq_splitOnP,
    List.splitOn_eq_splitOnP, List.splitOnP_append_cons _ _ (by decide)]

theorem splitNewlines_of_oneLine {line : String} (oneLine : OneLine line) :
    splitNewlines line = [line] := by
  unfold splitNewlines
  rw [List.splitOn_eq_splitOnP, List.splitOnP_eq_singleton]
  · simp
  · intro c member
    rw [beq_eq_false_iff_ne]
    exact fun same => oneLine (same ▸ member)

theorem splitNewlines_joinLines_append (oneLine : ∀ line ∈ lines, OneLine line) (rest : String) :
    splitNewlines (joinLines lines ++ rest) = lines ++ splitNewlines rest := by
  induction lines with
  | nil => simp [joinLines]
  | cons line others ih =>
    have shape : joinLines (line :: others) ++ rest = line ++ "\n" ++ (joinLines others ++ rest) := by
      apply String.toList_injective
      simp [joinLines]
    rw [shape, splitNewlines_append,
      splitNewlines_of_oneLine (oneLine line List.mem_cons_self),
      ih (List.forall_mem_cons.mp oneLine).2]
    rfl

theorem joinLines_splitNewlines (text : String) : joinLines (splitNewlines text) = text ++ "\n" := by
  apply String.toList_injective
  unfold joinLines splitNewlines
  rw [String.toList_ofList, String.toList_append]
  generalize text.toList = chars
  induction chars with
  | nil => decide
  | cons c rest ih =>
    have notEmpty := List.splitOnP_ne_nil (· == '\n') rest
    rw [List.splitOn_eq_splitOnP] at ih ⊢
    rw [List.splitOnP_cons_eq_if_modifyHead]
    by_cases newline : c = '\n'
    · simpa [newline] using ih
    · cases split : rest.splitOnP (· == '\n') with
      | nil => exact absurd split notEmpty
      | cons head tail =>
        rw [split] at ih
        simpa [newline] using ih

theorem splitNewlines_cons (c : Char) (rest : List Char) :
    splitNewlines (String.ofList (c :: rest)) =
      if c = '\n' then "" :: splitNewlines (String.ofList rest)
      else (splitNewlines (String.ofList rest)).modifyHead fun line =>
        String.ofList (c :: line.toList) := by
  unfold splitNewlines
  rw [String.toList_ofList, String.toList_ofList, List.splitOn_eq_splitOnP,
    List.splitOn_eq_splitOnP, List.splitOnP_cons_eq_if_modifyHead]
  by_cases newline : c = '\n'
  · simp [newline]
  · cases split : rest.splitOnP (· == '\n') with
    | nil => exact absurd split (List.splitOnP_ne_nil _ _)
    | cons head tail => simp [newline]

theorem splitNewlines_ne_nil (text : String) : splitNewlines text ≠ [] := by
  unfold splitNewlines
  rw [ne_eq, List.map_eq_nil_iff, List.splitOn_eq_splitOnP]
  exact List.splitOnP_ne_nil _ _

/-- A character that ends no line goes to the end of the last line. -/
theorem splitNewlines_concat (text : List Char) {c : Char} (notNewline : c ≠ '\n') :
    ∃ before last, splitNewlines (String.ofList text) = before ++ [last] ∧
      splitNewlines (String.ofList (text ++ [c])) = before ++ [last ++ String.ofList [c]] := by
  induction text with
  | nil =>
    refine ⟨[], "", by simp [splitNewlines], ?_⟩
    rw [List.nil_append, splitNewlines_cons, if_neg notNewline]
    simp [splitNewlines]
  | cons d rest ih =>
    obtain ⟨before, last, lines, extended⟩ := ih
    rw [List.cons_append, splitNewlines_cons, splitNewlines_cons, lines, extended]
    by_cases newline : d = '\n'
    · exact ⟨"" :: before, last, by simp [newline], by simp [newline]⟩
    · cases before with
      | nil =>
        refine ⟨[], String.ofList (d :: last.toList), by simp [newline], ?_⟩
        rw [if_neg newline]
        simp only [List.nil_append, List.modifyHead_cons, List.cons.injEq, and_true]
        apply String.toList_injective
        simp
      | cons head others =>
        exact ⟨String.ofList (d :: head.toList) :: others, last, by simp [newline],
          by simp [newline]⟩

theorem oneLine_of_mem_splitNewlines {text line : String} (member : line ∈ splitNewlines text) :
    OneLine line := by
  unfold splitNewlines at member
  obtain ⟨chars, inSplit, rfl⟩ := List.mem_map.mp member
  clear member
  unfold OneLine
  rw [String.toList_ofList]
  generalize text.toList = all at inSplit
  induction all generalizing chars with
  | nil =>
    have empty : chars = [] := by simpa using inSplit
    simp [empty]
  | cons c rest ih =>
    rw [List.splitOn_eq_splitOnP, List.splitOnP_cons_eq_if_modifyHead] at inSplit
    rw [List.splitOn_eq_splitOnP] at ih
    by_cases newline : c = '\n'
    · simp only [newline, beq_self_eq_true, ↓reduceIte, List.mem_cons] at inSplit
      rcases inSplit with rfl | later
      · simp
      · exact ih chars later
    · cases split : rest.splitOnP (· == '\n') with
      | nil => exact absurd split (List.splitOnP_ne_nil _ _)
      | cons head tail =>
        rw [split] at inSplit ih
        simp only [beq_iff_eq, newline, ↓reduceIte, List.modifyHead_cons, List.mem_cons]
          at inSplit
        rcases inSplit with rfl | later
        · have headLine := ih head List.mem_cons_self
          simp [Ne.symm newline, headLine]
        · exact ih chars (List.mem_cons_of_mem _ later)

/-- A text that ends in a semicolon does so in its last line. -/
theorem hasSuffix_last {text last : String} (ended : hasSuffix text ";" = true)
    (isLast : (splitNewlines text).getLast? = some last) :
    hasSuffix (trimSpace last) ";" = true := by
  obtain ⟨start, shape⟩ := (hasSuffix_iff _ _).mp ended
  obtain ⟨before, final, -, lines⟩ := @splitNewlines_concat start.toList ';' (by decide)
  have isText : String.ofList (start.toList ++ [';']) = text := by
    apply String.toList_injective
    rw [shape]
    simp
  rw [isText] at lines
  rw [lines, List.getLast?_concat] at isLast
  rw [← Option.some.inj isLast]
  have firmEnd : ∃ kept, trimSpace (final ++ String.ofList [';']) = kept ++ ";" := by
    unfold trimSpace
    rw [String.toList_append, String.toList_ofList, List.dropWhile_append]
    have semicolon : isSpace ';' = false := by decide
    split
    · rw [List.dropWhile_cons_of_neg (by simp [semicolon])]
      refine ⟨"", ?_⟩
      apply String.toList_injective
      simp [semicolon]
    · rw [List.reverse_append, List.reverse_singleton, List.singleton_append,
        List.dropWhile_cons_of_neg (by simp [semicolon]), List.reverse_cons, List.reverse_reverse]
      refine ⟨String.ofList (final.toList.dropWhile isSpace), ?_⟩
      apply String.toList_injective
      simp
  obtain ⟨kept, isTrimmed⟩ := firmEnd
  rw [isTrimmed]
  exact hasSuffix_append _ _

/-! ### Weights -/

/-- How many characters of a text are not blank. -/
def weight (text : String) : Nat := text.toList.countP fun c => !isSpace c

theorem weight_append (first second : String) :
    weight (first ++ second) = weight first + weight second := by
  unfold weight
  rw [String.toList_append, List.countP_append]

theorem weight_newline (text : String) : weight (text ++ "\n") = weight text := by
  rw [weight_append]
  rfl

theorem weight_eq_zero_iff : weight text = 0 ↔ trimSpace text = "" := by
  unfold weight
  rw [trimSpace_eq_empty_iff, List.countP_eq_zero]
  simp

theorem weight_trimSpace (text : String) : weight (trimSpace text) = weight text := by
  have blanks : ∀ chars : List Char, (chars.dropWhile isSpace).countP (fun c => !isSpace c) =
      chars.countP fun c => !isSpace c := by
    intro chars
    induction chars with
    | nil => rfl
    | cons c rest ih =>
      by_cases blank : isSpace c = true
      · rw [List.dropWhile_cons_of_pos blank, ih,
          List.countP_cons_of_neg (by simp [blank])]
      · rw [List.dropWhile_cons_of_neg blank]
  unfold weight trimSpace
  rw [String.toList_ofList, List.countP_reverse, blanks, List.countP_reverse, blanks]

theorem weight_joinLines_cons (line : String) (rest : List String) :
    weight (joinLines (line :: rest)) = weight line + weight (joinLines rest) := by
  have shape : joinLines (line :: rest) = line ++ "\n" ++ joinLines rest := by
    apply String.toList_injective
    simp [joinLines]
  rw [shape, weight_append, weight_newline]

theorem weight_joinLines_append (first second : List String) :
    weight (joinLines (first ++ second)) = weight (joinLines first) + weight (joinLines second) := by
  rw [joinLines_append, weight_append]

theorem weight_splitNewlines (text : String) : weight (joinLines (splitNewlines text)) = weight text := by
  rw [joinLines_splitNewlines, weight_newline]

/-! ### Properties of lines -/

def EveryLine (Holds : String → Prop) (text : String) : Prop := ∀ line ∈ splitNewlines text, Holds line

/-- A property of a line that does not see the blank space around it. -/
def BlankBlind (Holds : String → Prop) : Prop :=
  ∀ line other, trimSpace line = trimSpace other → Holds line → Holds other

theorem everyLine_tail {Holds : String → Prop} (blind : BlankBlind Holds) {c : Char}
    {rest : List Char} (blank : isSpace c = true)
    (every : EveryLine Holds (String.ofList (c :: rest))) :
    EveryLine Holds (String.ofList rest) := by
  unfold EveryLine at *
  rw [splitNewlines_cons] at every
  by_cases newline : c = '\n'
  · rw [if_pos newline] at every
    exact (List.forall_mem_cons.mp every).2
  · rw [if_neg newline] at every
    cases lines : splitNewlines (String.ofList rest) with
    | nil => exact absurd lines (splitNewlines_ne_nil _)
    | cons head tail =>
      rw [lines, List.modifyHead_cons] at every
      intro line member
      rcases List.mem_cons.mp member with rfl | later
      · refine blind _ _ ?_ (every _ List.mem_cons_self)
        have blankStart : ∀ d ∈ (String.ofList [c]).toList, isSpace d = true := by
          simp [blank]
        have shape : String.ofList (c :: line.toList) = String.ofList [c] ++ line := by
          apply String.toList_injective
          simp
        rw [shape, trimSpace_blank_append blankStart]
      · exact every line (List.mem_cons_of_mem _ later)

theorem everyLine_init {Holds : String → Prop} (blind : BlankBlind Holds) {start : List Char}
    {c : Char} (blank : isSpace c = true)
    (every : EveryLine Holds (String.ofList (start ++ [c]))) :
    EveryLine Holds (String.ofList start) := by
  unfold EveryLine at *
  by_cases newline : c = '\n'
  · have shape : String.ofList (start ++ [c]) = String.ofList start ++ "\n" ++ "" := by
      apply String.toList_injective
      simp [newline]
    rw [shape, splitNewlines_append] at every
    exact fun line member => every line (List.mem_append_left _ member)
  · obtain ⟨before, last, lines, extended⟩ := splitNewlines_concat start newline
    rw [extended] at every
    rw [lines]
    intro line member
    rcases List.mem_append.mp member with early | isLast
    · exact every line (List.mem_append_left _ early)
    · rw [List.mem_singleton.mp isLast]
      refine blind _ _ ?_ (every _ (List.mem_append_right _ (List.mem_singleton_self _)))
      exact trimSpace_append_blank_char last blank

theorem EveryLine.trimSpace {Holds : String → Prop} (blind : BlankBlind Holds)
    (every : EveryLine Holds text) : EveryLine Holds (trimSpace text) := by
  have trimmed := @trimSpace_preserves (fun chars => EveryLine Holds (String.ofList chars)) text
    (fun c rest blank holds => everyLine_tail blind blank holds)
    (fun start c blank holds => everyLine_init blind blank holds) (by simpa using every)
  simpa using trimmed

end DbBackup.Lib.LineScan
