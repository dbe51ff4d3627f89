import DbBackup.Engine.Sqlite.Dump

/-!
Owns when a restore executes the statements a dump of SQLite holds.

Contract: exactly when the executed statements are the written ones
(`restoresExactly_iff`). The stream knows lines: it leaves out every line that
begins with two dashes and cuts where a line ends in a semicolon, except in a
trigger, which it takes to end at the first such line that ends in `END;`.

A text weighs as much as it has characters that are not blank. The lines that
are not left out weigh as much as what is executed, which ties every line to
the statement it was written for.
-/

set_option linter.all false

namespace DbBackup.Engine.Sqlite

open Lib.GoString Lib.LineScan

/-! ### Statements and comments that pass -/

/-- Nothing of the comment is left when its lines are skipped. -/
def Quiet (comment : String) : Prop :=
  ∀ line ∈ splitNewlines ("--" ++ comment), trimSpace line = "" ∨ isComment line = true

/-- No line is left out, no line before the last ends the statement, and the
last one does. -/
structure Kept (text : String) : Prop where
  noComment : ∀ line ∈ splitNewlines text, isComment line = false
  whole : ∀ before line after, splitNewlines text = before ++ line :: after → after ≠ [] →
    ¬ (endsLine line = true ∧ stmtComplete (joinLines (before ++ [line])) = true)
  complete : stmtComplete text = true

def statements (pieces : List Piece) : List String := pieces.filterMap Piece.statement

/-- A restore of the dump executes the statements that were written. -/
def RestoresExactly (options : DumpOptions) (db : Database) : Prop :=
  executed (render (dump options db)) = statements (dump options db)

/-! ### Lines of a dump -/

def Piece.lines : Piece → List String
  | .comment text => splitNewlines ("--" ++ text)
  | .sql text => splitNewlines text
  | .gap => [""]

theorem joinLines_pieceLines (piece : Piece) : joinLines piece.lines = piece.text := by
  cases piece with
  | comment text => exact joinLines_splitNewlines _
  | sql text => exact joinLines_splitNewlines _
  | gap => decide

theorem oneLine_lines (pieces : List Piece) :
    ∀ line ∈ pieces.flatMap Piece.lines, OneLine line := by
  intro line member
  obtain ⟨piece, -, inPiece⟩ := List.mem_flatMap.mp member
  cases piece with
  | comment text => exact oneLine_of_mem_splitNewlines inPiece
  | sql text => exact oneLine_of_mem_splitNewlines inPiece
  | gap =>
    rw [List.mem_singleton.mp inPiece]
    decide

theorem textLines_render (pieces : List Piece) :
    textLines (render pieces) = pieces.flatMap Piece.lines := by
  have joined : render pieces = joinLines (pieces.flatMap Piece.lines) := by
    unfold render
    induction pieces with
    | nil => rfl
    | cons piece rest ih =>
      rw [List.map_cons, String.join_cons, ih, List.flatMap_cons,
        joinLines_append, joinLines_pieceLines]
  rw [joined, textLines_joinLines (oneLine_lines pieces)]

/-! ### Weights -/

theorem weight_pos_of_endsLine {line : String} (ends : endsLine line = true) : 0 < weight line := by
  obtain ⟨start, shape⟩ := (hasSuffix_iff _ _).mp ends
  rw [← weight_trimSpace, shape, weight_append]
  have one : weight ";" = 1 := by decide
  omega

/-! ### Groups of lines -/

/-- What `Restore` executes, from the text collected so far. -/
def executedFrom (cur : String) (lines : List String) : List String :=
  ((restoreLoop cur lines).map trimSpace).filter fun stmt => stmt ≠ "" && !hasPrefix stmt "--"

variable {text : String}

theorem hasDashes_iff : hasPrefix (trimSpace text) "--" = true ↔
    ∃ rest, text.toList.dropWhile isSpace = '-' :: '-' :: rest := by
  have dash : isSpace '-' = false := by decide
  obtain ⟨before, after, -, shape⟩ := trimSpace_parts text
  constructor
  · intro begins
    obtain ⟨rest, isTrimmed⟩ := (hasPrefix_iff _ _).mp begins
    refine ⟨rest.toList ++ after.toList, ?_⟩
    rw [shape, isTrimmed]
    simp
  · rintro ⟨rest, isText⟩
    have trimmed : (trimSpace text).toList =
        '-' :: '-' :: (rest.reverse.dropWhile isSpace).reverse := by
      unfold trimSpace
      rw [String.toList_ofList, isText, List.reverse_cons, List.reverse_cons,
        List.append_assoc, List.dropWhile_append]
      split
      · rename_i blank
        rw [List.isEmpty_iff.mp blank]
        simp [dash]
      · simp
    refine (hasPrefix_iff _ _).mpr ⟨String.ofList (rest.reverse.dropWhile isSpace).reverse, ?_⟩
    apply String.toList_injective
    rw [trimmed]
    simp

/-- Lines that are no comments do not begin like one when they are joined. -/
theorem joinLines_noDashes {lines : List String}
    (noComment : ∀ line ∈ lines, isComment line = false) :
    hasPrefix (trimSpace (joinLines lines)) "--" = false := by
  induction lines with
  | nil => decide
  | cons line rest ih =>
    obtain ⟨own, others⟩ := List.forall_mem_cons.mp noComment
    have later := ih others
    have shape : joinLines (line :: rest) = line ++ ("\n" ++ joinLines rest) := by
      apply String.toList_injective
      simp [joinLines]
    have newline : isSpace '\n' = true := by decide
    by_contra dashes
    rw [Bool.not_eq_false, hasDashes_iff, shape, String.toList_append] at dashes
    obtain ⟨after, isText⟩ := dashes
    cases text : line.toList.dropWhile isSpace with
    | nil =>
      -- A blank line: the dashes are in a later one.
      rw [List.dropWhile_append, text] at isText
      have inRest : (joinLines rest).toList.dropWhile isSpace = '-' :: '-' :: after := by
        simpa [newline] using isText
      rw [hasDashes_iff.mpr ⟨after, inRest⟩] at later
      cases later
    | cons first others =>
      rw [List.dropWhile_append, text] at isText
      cases others with
      | nil => simp at isText
      | cons second tail =>
        have isComment' : isComment line = true := by
          refine hasDashes_iff.mpr ⟨tail, ?_⟩
          simp only [List.isEmpty_cons, Bool.false_eq_true, if_false, List.cons_append,
            List.cons.injEq] at isText
          rw [text, isText.1, isText.2.1]
        rw [own] at isComment'
        cases isComment'

theorem restoreLoop_filter (cur : String) (lines : List String) :
    restoreLoop cur lines = restoreLoop cur (lines.filter fun line => !isComment line) := by
  induction lines generalizing cur with
  | nil => rfl
  | cons line rest ih =>
    by_cases comment : isComment line = true
    · rw [restoreLoop, if_pos comment, List.filter_cons_of_neg (by simp [comment]),
        ih]
    · rw [List.filter_cons_of_pos (by simp [comment]), restoreLoop, restoreLoop,
        if_neg comment, if_neg comment]
      split
      · rw [ih]
      · rw [ih]

/-- Every group is a list of lines that are no comments; together they weigh
as much as the lines. -/
theorem restoreLoop_groups {cur : List String} (curLines : ∀ line ∈ cur, isComment line = false)
    {lines : List String} (noComment : ∀ line ∈ lines, isComment line = false) :
    (∀ group ∈ restoreLoop (joinLines cur) lines, ∃ part : List String, group = joinLines part ∧
      (∀ line ∈ part, isComment line = false) ∧ ∀ line ∈ part, line ∈ cur ∨ line ∈ lines) ∧
      ((restoreLoop (joinLines cur) lines).map weight).sum =
        weight (joinLines cur) + weight (joinLines lines) := by
  induction lines generalizing cur with
  | nil =>
    rw [restoreLoop]
    split
    · rename_i nothing
      rw [nothing]
      simp [joinLines]
      decide
    · refine ⟨?_, by simp [joinLines]; decide⟩
      intro group member
      rw [List.mem_singleton.mp member]
      exact ⟨cur, rfl, curLines, fun line inCur => .inl inCur⟩
  | cons line rest ih =>
    obtain ⟨own, later⟩ := List.forall_mem_cons.mp noComment
    have grown : ∀ other ∈ cur ++ [line], isComment other = false := by
      intro other member
      rcases List.mem_append.mp member with inCur | isLine
      · exact curLines other inCur
      · rwa [List.mem_singleton.mp isLine]
    have joined : joinLines cur ++ line ++ "\n" = joinLines (cur ++ [line]) := by
      rw [joinLines_concat]
    have grownWeight : weight (joinLines (cur ++ [line])) =
        weight (joinLines cur) + weight line := by
      rw [← joined, weight_newline, weight_append]
    rw [restoreLoop, if_neg (by simp [own]), joined, weight_joinLines_cons]
    split
    · obtain ⟨groups, sum⟩ := @ih [] (by simp) later
      rw [show joinLines [] = "" from rfl] at groups sum
      refine ⟨?_, ?_⟩
      · intro group member
        rcases List.mem_cons.mp member with rfl | inRest
        · refine ⟨cur ++ [line], rfl, grown, ?_⟩
          intro other inPart
          rcases List.mem_append.mp inPart with inCur | isLine
          · exact .inl inCur
          · rw [List.mem_singleton.mp isLine]
            exact .inr List.mem_cons_self
        · obtain ⟨part, isPart, clean, inside⟩ := groups group inRest
          refine ⟨part, isPart, clean, fun other inPart => .inr (List.mem_cons_of_mem _ ?_)⟩
          rcases inside other inPart with inNil | inLines
          · cases inNil
          · exact inLines
      · rw [List.map_cons, List.sum_cons, sum, grownWeight]
        have nothing : weight "" = 0 := by decide
        omega
    · obtain ⟨groups, sum⟩ := ih grown later
      refine ⟨?_, by rw [sum, grownWeight]; omega⟩
      intro group member
      obtain ⟨part, isPart, clean, inside⟩ := groups group member
      refine ⟨part, isPart, clean, fun other inPart => ?_⟩
      rcases inside other inPart with inGrown | inLines
      · rcases List.mem_append.mp inGrown with inCur | isLine
        · exact .inl inCur
        · rw [List.mem_singleton.mp isLine]
          exact .inr List.mem_cons_self
      · exact .inr (List.mem_cons_of_mem _ inLines)

theorem executedFrom_weight {cur : List String} (curLines : ∀ line ∈ cur, isComment line = false)
    {lines : List String} (noComment : ∀ line ∈ lines, isComment line = false) :
    ((executedFrom (joinLines cur) lines).map weight).sum =
      weight (joinLines cur) + weight (joinLines lines) := by
  obtain ⟨groups, sum⟩ := restoreLoop_groups curLines noComment
  rw [← sum]
  unfold executedFrom
  have kept : ∀ parts : List String, (∀ part ∈ parts, hasPrefix (trimSpace part) "--" = false) →
      (((parts.map trimSpace).filter fun stmt => stmt ≠ "" && !hasPrefix stmt "--").map
        weight).sum = (parts.map weight).sum := by
    intro parts noDashes
    induction parts with
    | nil => rfl
    | cons part rest ih =>
      obtain ⟨own, others⟩ := List.forall_mem_cons.mp noDashes
      have later := ih others
      by_cases blank : trimSpace part = ""
      · rw [List.map_cons, List.filter_cons_of_neg (by simp [blank]), later, List.map_cons,
          List.sum_cons, weight_eq_zero_iff.mpr blank, Nat.zero_add]
      · rw [List.map_cons, List.filter_cons_of_pos (by simp [blank, own]), List.map_cons,
          List.sum_cons, later, List.map_cons, List.sum_cons, weight_trimSpace]
  refine kept _ fun part member => ?_
  obtain ⟨lines, isJoined, clean, -⟩ := groups part member
  rw [isJoined]
  exact joinLines_noDashes clean

theorem isComment_blankBlind : BlankBlind fun line => isComment line = false := by
  intro line other same noComment
  unfold isComment at *
  rwa [← same]

/-- No line of an executed statement is a comment. -/
theorem executedFrom_noComment {lines : List String} (oneLine : ∀ line ∈ lines, OneLine line)
    (noComment : ∀ line ∈ lines, isComment line = false) :
    ∀ stmt ∈ executedFrom "" lines, ∀ line ∈ splitNewlines stmt, isComment line = false := by
  intro stmt member
  obtain ⟨groups, -⟩ := @restoreLoop_groups [] (by simp) _ noComment
  obtain ⟨group, inGroups, rfl⟩ := List.mem_map.mp (List.mem_of_mem_filter member)
  obtain ⟨part, rfl, clean, inside⟩ := groups group inGroups
  have partLines : ∀ line ∈ part, OneLine line := by
    intro line inPart
    rcases inside line inPart with inNil | inLines
    · cases inNil
    · exact oneLine line inLines
  have every : EveryLine (fun line => isComment line = false) (joinLines part) := by
    have shape := splitNewlines_joinLines_append partLines ""
    rw [String.append_empty] at shape
    intro line inJoined
    rw [shape] at inJoined
    rcases List.mem_append.mp inJoined with inPart | isLast
    · exact clean line inPart
    · have isEmpty : line = "" := by simpa [splitNewlines] using isLast
      rw [isEmpty]
      decide
  exact every.trimSpace isComment_blankBlind

/-! ### The lines of one statement -/

/-- What the lines of a statement do to the text collected before them. -/
inductive StatementRun (cur : String) (lines rest : List String) : Prop where
  /-- A line before the last ends a group. -/
  | early (before : List String) (line : String) (after : List String)
      (shape : lines = before ++ line :: after) (notLast : after ≠ [])
      (ends : endsLine line = true)
      (complete : stmtComplete (cur ++ joinLines (before ++ [line])) = true)
      (cut : restoreLoop cur (lines ++ rest) =
        (cur ++ joinLines (before ++ [line])) :: restoreLoop "" (after ++ rest))
  /-- The last line does, and no line before it. -/
  | kept (cut : restoreLoop cur (lines ++ rest) =
        (cur ++ joinLines lines) :: restoreLoop "" rest)
      (complete : stmtComplete (cur ++ joinLines lines) = true)
      (whole : ∀ before line after, lines = before ++ line :: after → after ≠ [] →
        ¬ (endsLine line = true ∧ stmtComplete (cur ++ joinLines (before ++ [line])) = true))
  /-- No line does. -/
  | collected (read : restoreLoop cur (lines ++ rest) = restoreLoop (cur ++ joinLines lines) rest)
      (unended : ∀ last, lines.getLast? = some last →
        ¬ (endsLine last = true ∧ stmtComplete (cur ++ joinLines lines) = true))

theorem statementRun {lines : List String} (noComment : ∀ line ∈ lines, isComment line = false)
    (notEmpty : lines ≠ []) (cur : String) (rest : List String) : StatementRun cur lines rest := by
  induction lines generalizing cur with
  | nil => exact absurd rfl notEmpty
  | cons line others ih =>
    have own := noComment line List.mem_cons_self
    have single : joinLines [line] = line ++ "\n" := by
      apply String.toList_injective
      simp [joinLines]
    have stepped : ∀ more, restoreLoop cur (line :: more) =
        if endsLine line ∧ stmtComplete (cur ++ joinLines [line]) = true then
          (cur ++ joinLines [line]) :: restoreLoop "" more
        else restoreLoop (cur ++ joinLines [line]) more := by
      intro more
      rw [restoreLoop, if_neg (by simp [own]), single, String.append_assoc]
    have grown : ∀ part, cur ++ joinLines [line] ++ joinLines part =
        cur ++ joinLines (line :: part) := by
      intro part
      rw [String.append_assoc, ← joinLines_append, List.singleton_append]
    by_cases ends : endsLine line = true ∧ stmtComplete (cur ++ joinLines [line]) = true
    · by_cases isLast : others = []
      · subst isLast
        refine .kept ?_ ends.2 ?_
        · rw [List.singleton_append, stepped, if_pos ends]
        · intro before other after shape notLast
          cases before with
          | nil => exact absurd (List.cons.inj shape).2.symm notLast
          | cons first more =>
            have tooLong := congrArg List.length shape
            simp at tooLong
      · refine .early [] line others rfl isLast ends.1 ends.2 ?_
        rw [List.cons_append, stepped, if_pos ends, List.nil_append]
    · by_cases isLast : others = []
      · subst isLast
        refine .collected ?_ ?_
        · rw [List.singleton_append, stepped, if_neg ends]
        · intro last isLine
          rw [← Option.some.inj isLine]
          exact ends
      · have later := ih
          (List.forall_mem_cons.mp noComment).2 isLast
          (cur ++ joinLines [line])
        cases later with
        | early before other after shape notLast otherEnds complete cut =>
          rw [grown] at complete cut
          refine .early (line :: before) other after (by rw [shape]; rfl) notLast otherEnds
            complete ?_
          rw [List.cons_append, stepped, if_neg ends, cut]
          rfl
        | kept cut complete whole =>
          refine .kept ?_ (by rw [← grown]; exact complete) ?_
          · rw [List.cons_append, stepped, if_neg ends, cut, grown]
          · intro before other after shape notLast
            cases before with
            | nil =>
              rw [← (List.cons.inj shape).1]
              exact ends
            | cons first more =>
              obtain ⟨sameFirst, sameRest⟩ := List.cons.inj shape
              have late := whole more other after sameRest notLast
              rw [grown, sameFirst] at late
              exact late
        | collected read unended =>
          rw [grown] at read unended
          refine .collected ?_ ?_
          · rw [List.cons_append, stepped, if_neg ends, read]
          · intro last isEnd
            rw [List.getLast?_cons_of_ne_nil isLast] at isEnd
            exact unended last isEnd

/-! ### From the executed statements to the lines -/

theorem stmtComplete_of_end {text : String}
    (ends : hasSuffix (toUpper (trimSpace text)) "END;" = true) : stmtComplete text = true := by
  unfold stmtComplete
  dsimp only
  split
  · split
    · exact ends
    · rfl
  · rfl

theorem stmtComplete_congr {first second : String} (same : trimSpace first = trimSpace second) :
    stmtComplete first = stmtComplete second := by
  unfold stmtComplete
  rw [same]

/-- Blank text before a statement does not show. -/
theorem trimSpace_blank_before {cur : String} (blank : trimSpace cur = "") (text : String) :
    trimSpace (cur ++ text) = trimSpace text :=
  trimSpace_blank_append (trimSpace_eq_empty_iff.mp blank)

section Groups

variable {cur : List String}

theorem weight_concat (line : String) :
    weight (joinLines (cur ++ [line])) = weight (joinLines cur) + weight line := by
  rw [joinLines_concat, weight_newline, weight_append]

variable {line : String}

theorem noComment_concat (curLines : ∀ line ∈ cur, isComment line = false)
    (own : isComment line = false) : ∀ other ∈ cur ++ [line], isComment other = false := by
  intro other member
  rcases List.mem_append.mp member with inCur | isLine
  · exact curLines other inCur
  · rwa [List.mem_singleton.mp isLine]

/-- A group that is not blank is executed. -/
theorem filter_group (curLines : ∀ line ∈ cur, isComment line = false)
    (heavy : 0 < weight (joinLines cur)) (rest : List String) :
    (trimSpace (joinLines cur) :: rest).filter (fun stmt => stmt ≠ "" && !hasPrefix stmt "--") =
      trimSpace (joinLines cur) :: rest.filter fun stmt => stmt ≠ "" && !hasPrefix stmt "--" := by
  have notBlank : trimSpace (joinLines cur) ≠ "" := fun blank => by
    rw [weight_eq_zero_iff.mpr blank] at heavy
    omega
  have noDashes := joinLines_noDashes curLines
  exact List.filter_cons_of_pos (by simp [notBlank, noDashes])

theorem executedFrom_nil (curLines : ∀ line ∈ cur, isComment line = false)
    (heavy : 0 < weight (joinLines cur)) :
    executedFrom (joinLines cur) [] = [trimSpace (joinLines cur)] := by
  have notEmpty : joinLines cur ≠ "" := fun empty => by
    rw [empty] at heavy
    exact absurd heavy (by decide)
  unfold executedFrom
  rw [restoreLoop, if_neg notEmpty, List.map_singleton, filter_group curLines heavy, List.filter_nil]

theorem executedFrom_cut (curLines : ∀ line ∈ cur, isComment line = false)
    (own : isComment line = false) (ends : endsLine line = true)
    (complete : stmtComplete (joinLines (cur ++ [line])) = true) (rest : List String) :
    executedFrom (joinLines cur) (line :: rest) =
      trimSpace (joinLines (cur ++ [line])) :: executedFrom "" rest := by
  have heavy : 0 < weight (joinLines (cur ++ [line])) := by
    rw [weight_concat]
    have lineHeavy := weight_pos_of_endsLine ends
    omega
  unfold executedFrom
  rw [restoreLoop, if_neg (by simp [own]), ← joinLines_concat, if_pos ⟨ends, complete⟩,
    List.map_cons, filter_group (noComment_concat curLines own) heavy]

theorem executedFrom_collect (own : isComment line = false)
    (notEnd : ¬ (endsLine line = true ∧ stmtComplete (joinLines (cur ++ [line])) = true))
    (rest : List String) :
    executedFrom (joinLines cur) (line :: rest) = executedFrom (joinLines (cur ++ [line])) rest := by
  unfold executedFrom
  rw [restoreLoop, if_neg (by simp [own]), ← joinLines_concat, if_neg notEnd]

/-- Blank lines after a group do not change where it ends. -/
theorem executedFrom_blank (curLines : ∀ line ∈ cur, isComment line = false)
    {lines : List String} (noComment : ∀ line ∈ lines, isComment line = false)
    (heavy : 0 < weight (joinLines cur)) (light : weight (joinLines lines) = 0) :
    ∃ head rest, executedFrom (joinLines cur) lines = head :: rest ∧
      weight (joinLines cur) ≤ weight head := by
  induction lines generalizing cur with
  | nil =>
    refine ⟨_, [], executedFrom_nil curLines heavy, ?_⟩
    rw [weight_trimSpace]
  | cons line others ih =>
    have own := noComment line List.mem_cons_self
    rw [weight_joinLines_cons] at light
    have notEnd : ¬ (endsLine line = true ∧
        stmtComplete (joinLines (cur ++ [line])) = true) := fun ends => by
      have lineHeavy := weight_pos_of_endsLine ends.1
      omega
    have grownWeight := @weight_concat cur line
    obtain ⟨head, rest, isHead, atLeast⟩ := ih (noComment_concat curLines own)
      (List.forall_mem_cons.mp noComment).2 (by omega) (by omega)
    exact ⟨head, rest, by rw [executedFrom_collect own notEnd, isHead], by omega⟩

/-- A group that goes on past its first text is heavier than it. -/
theorem executedFrom_head (curLines : ∀ line ∈ cur, isComment line = false)
    {lines : List String} (noComment : ∀ line ∈ lines, isComment line = false)
    (curHeavy : 0 < weight (joinLines cur)) (linesHeavy : 0 < weight (joinLines lines)) :
    ∃ head rest, executedFrom (joinLines cur) lines = head :: rest ∧
      weight (joinLines cur) < weight head := by
  induction lines generalizing cur with
  | nil => exact absurd linesHeavy (by decide)
  | cons line others ih =>
    obtain ⟨own, later⟩ := List.forall_mem_cons.mp noComment
    have grown := noComment_concat curLines own
    have grownWeight := @weight_concat cur line
    rw [weight_joinLines_cons] at linesHeavy
    by_cases ends : endsLine line = true ∧ stmtComplete (joinLines (cur ++ [line])) = true
    · have lineHeavy := weight_pos_of_endsLine ends.1
      refine ⟨_, _, executedFrom_cut curLines own ends.1 ends.2 others, ?_⟩
      rw [weight_trimSpace]
      omega
    · rw [executedFrom_collect own ends]
      by_cases othersHeavy : 0 < weight (joinLines others)
      · obtain ⟨head, rest, isHead, heavy⟩ := ih grown later (by omega) othersHeavy
        exact ⟨head, rest, isHead, by omega⟩
      · obtain ⟨head, rest, isHead, atLeast⟩ :=
          executedFrom_blank grown later (by omega) (by omega)
        exact ⟨head, rest, isHead, by omega⟩

/-- Comments and blank lines leave nothing but blank text behind. -/
theorem executedFrom_quiet {lines : List String}
    (quiet : ∀ line ∈ lines, trimSpace line = "" ∨ isComment line = true)
    (curLines : ∀ line ∈ cur, isComment line = false) (blank : weight (joinLines cur) = 0)
    (rest : List String) :
    ∃ cur', (∀ line ∈ cur', isComment line = false) ∧ weight (joinLines cur') = 0 ∧
      executedFrom (joinLines cur) (lines ++ rest) = executedFrom (joinLines cur') rest := by
  induction lines generalizing cur with
  | nil => exact ⟨cur, curLines, blank, rfl⟩
  | cons line others ih =>
    have later : ∀ other ∈ others, trimSpace other = "" ∨ isComment other = true :=
      (List.forall_mem_cons.mp quiet).2
    by_cases comment : isComment line = true
    · obtain ⟨cur', clean, still, same⟩ := ih later curLines blank
      refine ⟨cur', clean, still, ?_⟩
      rw [← same]
      unfold executedFrom
      rw [List.cons_append, restoreLoop, if_pos comment]
    · have own := Bool.eq_false_iff.mpr comment
      have lineBlank : weight line = 0 := weight_eq_zero_iff.mpr
        ((quiet line List.mem_cons_self).resolve_right comment)
      have notEnd : ¬ (endsLine line = true ∧
          stmtComplete (joinLines (cur ++ [line])) = true) := fun ends => by
        have lineHeavy := weight_pos_of_endsLine ends.1
        omega
      have grownWeight := @weight_concat cur line
      obtain ⟨cur', clean, still, same⟩ := ih later
        (noComment_concat curLines own) (by omega)
      refine ⟨cur', clean, still, ?_⟩
      rw [← same, List.cons_append, executedFrom_collect own notEnd]

/-- A group that is cut off, as it is executed. -/
theorem executedFrom_of_cut (curLines : ∀ line ∈ cur, isComment line = false)
    {part lines rest : List String} (partLines : ∀ line ∈ part, isComment line = false)
    (heavy : 0 < weight (joinLines part))
    (cut : restoreLoop (joinLines cur) lines = (joinLines cur ++ joinLines part) :: restoreLoop "" rest) :
    executedFrom (joinLines cur) lines =
      trimSpace (joinLines cur ++ joinLines part) :: executedFrom "" rest := by
  have clean : ∀ line ∈ cur ++ part, isComment line = false := by
    intro line member
    rcases List.mem_append.mp member with inCur | inPart
    · exact curLines line inCur
    · exact partLines line inPart
  unfold executedFrom
  rw [cut, List.map_cons, ← joinLines_append, filter_group clean]
  rw [weight_joinLines_append]
  omega

end Groups

/-! ### Exact restores -/

/-- Statements without blank space around them, that end in a semicolon. -/
def Written (pieces : List Piece) : Prop :=
  ∀ text, .sql text ∈ pieces → Firm text ∧ hasSuffix text ";" = true

variable {pieces : List Piece}

theorem mem_statements :
    text ∈ statements pieces ↔ .sql text ∈ pieces := by
  unfold statements
  rw [List.mem_filterMap]
  constructor
  · rintro ⟨piece, member, isText⟩
    cases piece with
    | comment label => cases isText
    | gap => cases isText
    | sql other =>
      rw [← Option.some.inj isText]
      exact member
  · intro member
    exact ⟨.sql text, member, rfl⟩

theorem weight_pos_of_ended (ended : hasSuffix text ";" = true) : 0 < weight text := by
  obtain ⟨start, shape⟩ := (hasSuffix_iff _ _).mp ended
  rw [shape, weight_append]
  have one : weight ";" = 1 := by decide
  omega

theorem weight_after_pos (ended : hasSuffix text ";" = true)
    {before : List String} {line : String} {after : List String}
    (shape : splitNewlines text = before ++ line :: after) (notLast : after ≠ []) :
    0 < weight (joinLines after) := by
  rcases List.eq_nil_or_concat after with isNil | ⟨init, last, isLast⟩
  · exact absurd isNil notLast
  · rw [List.concat_eq_append] at isLast
    have atEnd : (splitNewlines text).getLast? = some last := by
      rw [shape, isLast, ← List.cons_append, ← List.append_assoc, List.getLast?_concat]
    have lastHeavy := weight_pos_of_endsLine (hasSuffix_last ended atEnd)
    rw [isLast, weight_concat]
    omega

theorem weight_sublist {few many : List String} (sub : few.Sublist many) :
    weight (joinLines few) ≤ weight (joinLines many) := by
  induction sub with
  | slnil => exact Nat.le_refl _
  | cons line _ smaller =>
    rw [weight_joinLines_cons]
    omega
  | cons_cons line _ smaller =>
    rw [weight_joinLines_cons, weight_joinLines_cons]
    omega

/-- The lines of a dump are not blank where it has a statement. -/
theorem heavy_of_statement (written : Written pieces)
    (noComment : ∀ text, .sql text ∈ pieces → ∀ line ∈ splitNewlines text, isComment line = false)
    (member : .sql text ∈ pieces) :
    0 < weight (joinLines ((pieces.flatMap Piece.lines).filter fun line => !isComment line)) := by
  have heavy := weight_pos_of_ended (written text member).2
  have own : (Piece.lines (.sql text)).filter (fun line => !isComment line) = splitNewlines text := by
    show (splitNewlines text).filter _ = _
    rw [List.filter_eq_self]
    intro line inText
    simp [noComment text member line inText]
  obtain ⟨before, after, shape⟩ := List.append_of_mem member
  have sub : (splitNewlines text).Sublist
      ((pieces.flatMap Piece.lines).filter fun line => !isComment line) := by
    rw [shape, List.flatMap_append, List.flatMap_cons, List.filter_append, List.filter_append, own]
    exact (List.sublist_append_left _ _).trans (List.sublist_append_right _ _)
  have atLeast := weight_sublist sub
  rw [weight_splitNewlines] at atLeast
  omega

/-- The first statement that is executed is the first that was written, up to
its last line: no line before it cuts it, and none after it belongs to it. The
induction is on the pieces, with blank text collected before them. -/
theorem kept_of_exact {pieces : List Piece} {cur : List String}
    (curLines : ∀ line ∈ cur, isComment line = false) (blank : weight (joinLines cur) = 0)
    (written : Written pieces)
    (noComment : ∀ text, .sql text ∈ pieces → ∀ line ∈ splitNewlines text, isComment line = false)
    (quiet : ∀ text, .comment text ∈ pieces → Quiet text)
    (exact : executedFrom (joinLines cur) (pieces.flatMap Piece.lines) = statements pieces) :
    ∀ text ∈ (statements pieces).dropLast, Kept text := by
  induction pieces generalizing cur with
  | nil => simp [statements]
  | cons piece rest ih =>
    have restWritten : Written rest := fun text member =>
      written text (List.mem_cons_of_mem _ member)
    have restClean : ∀ text, .sql text ∈ rest → ∀ line ∈ splitNewlines text,
        isComment line = false := fun text member => noComment text (List.mem_cons_of_mem _ member)
    have restQuiet : ∀ text, .comment text ∈ rest → Quiet text := fun text member =>
      quiet text (List.mem_cons_of_mem _ member)
    rw [List.flatMap_cons] at exact
    cases piece with
    | comment label =>
      obtain ⟨cur', clean, still, same⟩ := executedFrom_quiet
        (quiet label List.mem_cons_self) curLines blank (rest.flatMap Piece.lines)
      exact ih clean still restWritten restClean restQuiet (same.symm.trans exact)
    | gap =>
      obtain ⟨cur', clean, still, same⟩ := @executedFrom_quiet cur [""]
        (by simp [trimSpace]) curLines blank (rest.flatMap Piece.lines)
      exact ih clean still restWritten restClean restQuiet (same.symm.trans exact)
    | sql text =>
      obtain ⟨firm, ended⟩ := written text List.mem_cons_self
      have clean := noComment text List.mem_cons_self
      have heavy := weight_pos_of_ended ended
      have blankCur : trimSpace (joinLines cur) = "" := weight_eq_zero_iff.mp blank
      have isStatements : statements (.sql text :: rest) = text :: statements rest := rfl
      rw [isStatements] at exact ⊢
      have lines : Piece.lines (.sql text) = splitNewlines text := rfl
      rw [lines] at exact
      cases statementRun clean (splitNewlines_ne_nil text) (joinLines cur)
        (rest.flatMap Piece.lines) with
      | early before line after shape notLast ends _ cut =>
        -- The group is lighter than the statement, whose last line it lacks.
        have lineHeavy := weight_pos_of_endsLine ends
        have partClean : ∀ other ∈ before ++ [line], isComment other = false := by
          intro other member
          refine clean other ?_
          rw [shape, List.append_cons]
          exact List.mem_append_left _ member
        have partHeavy := @weight_concat before line
        have head := executedFrom_of_cut curLines partClean (by omega) cut
        rw [head] at exact
        have same := congrArg weight (List.cons.inj exact).1
        rw [weight_trimSpace, weight_append] at same
        have total : weight text =
            weight (joinLines (before ++ [line])) + weight (joinLines after) := by
          rw [← weight_splitNewlines text, shape, List.append_cons, weight_joinLines_append]
        have afterHeavy := weight_after_pos ended shape notLast
        omega
      | kept cut complete whole =>
        have partHeavy : 0 < weight (joinLines (splitNewlines text)) := by
          rwa [weight_splitNewlines]
        have head := executedFrom_of_cut curLines clean partHeavy cut
        rw [head] at exact
        have later := @ih [] (by simp) (by decide) restWritten restClean
          restQuiet (List.cons.inj exact).2
        intro other member
        cases restStatements : statements rest with
        | nil => simp [restStatements] at member
        | cons next others =>
          rw [restStatements, List.dropLast_cons_of_ne_nil (by simp)] at member
          rcases List.mem_cons.mp member with rfl | inRest
          · refine ⟨clean, ?_, ?_⟩
            · intro before line after shape notLast
              have late := whole before line after shape notLast
              rwa [stmtComplete_congr (trimSpace_blank_before blankCur _)] at late
            · rw [stmtComplete_congr (trimSpace_blank_before blankCur _),
                joinLines_splitNewlines] at complete
              rw [← complete]
              exact stmtComplete_congr
                (@trimSpace_append_blank_char other '\n' (by decide)).symm
          · exact later other (by rw [restStatements]; exact inRest)
      | collected read _ =>
        cases restStatements : statements rest with
        | nil => simp
        | cons next others =>
          -- The group goes on into the next statement.
          have nextWritten := mem_statements.mp
            (by rw [restStatements]; exact List.mem_cons_self)
          have restHeavy := heavy_of_statement restWritten restClean nextWritten
          have grownClean : ∀ line ∈ cur ++ splitNewlines text, isComment line = false := by
            intro line member
            rcases List.mem_append.mp member with inCur | inText
            · exact curLines line inCur
            · exact clean line inText
          have grownWeight := weight_joinLines_append cur (splitNewlines text)
          rw [weight_splitNewlines] at grownWeight
          obtain ⟨head, others', isHead, heavier⟩ := executedFrom_head grownClean
            (fun line member => by simpa using (List.mem_filter.mp member).2)
            (by omega) restHeavy
          have isRun : executedFrom (joinLines cur)
              (splitNewlines text ++ rest.flatMap Piece.lines) = head :: others' := by
            rw [← isHead]
            unfold executedFrom
            rw [read, joinLines_append, ← restoreLoop_filter]
          rw [isRun] at exact
          rw [(List.cons.inj exact).1] at heavier
          omega

/-- Blank text, comments and whole statements: what is executed is what was
written. -/
theorem exact_of_kept {pieces : List Piece} {cur : List String}
    (curLines : ∀ line ∈ cur, isComment line = false) (blank : weight (joinLines cur) = 0)
    (written : Written pieces) (quiet : ∀ text, .comment text ∈ pieces → Quiet text)
    (kept : ∀ text, .sql text ∈ pieces → Kept text) :
    executedFrom (joinLines cur) (pieces.flatMap Piece.lines) = statements pieces := by
  induction pieces generalizing cur with
  | nil =>
    have blankCur : trimSpace (joinLines cur) = "" := weight_eq_zero_iff.mp blank
    unfold executedFrom
    rw [List.flatMap_nil, restoreLoop]
    split
    · rfl
    · simp [blankCur, statements]
  | cons piece rest ih =>
    have restWritten : Written rest := fun text member =>
      written text (List.mem_cons_of_mem _ member)
    have restQuiet : ∀ text, .comment text ∈ rest → Quiet text := fun text member =>
      quiet text (List.mem_cons_of_mem _ member)
    have restKept : ∀ text, .sql text ∈ rest → Kept text := fun text member =>
      kept text (List.mem_cons_of_mem _ member)
    rw [List.flatMap_cons]
    cases piece with
    | comment label =>
      obtain ⟨cur', clean, still, same⟩ := executedFrom_quiet
        (quiet label List.mem_cons_self) curLines blank (rest.flatMap Piece.lines)
      exact same.trans (ih clean still restWritten restQuiet restKept)
    | gap =>
      obtain ⟨cur', clean, still, same⟩ := @executedFrom_quiet cur [""]
        (by simp [trimSpace]) curLines blank (rest.flatMap Piece.lines)
      exact same.trans (ih clean still restWritten restQuiet restKept)
    | sql text =>
      obtain ⟨firm, ended⟩ := written text List.mem_cons_self
      have own := kept text List.mem_cons_self
      have blankCur : trimSpace (joinLines cur) = "" := weight_eq_zero_iff.mp blank
      have newline := @trimSpace_append_blank_char text '\n' (by decide)
      have lines : Piece.lines (.sql text) = splitNewlines text := rfl
      rw [lines]
      cases statementRun own.noComment (splitNewlines_ne_nil text) (joinLines cur)
        (rest.flatMap Piece.lines) with
      | early before line after shape notLast ends complete cut =>
        rw [stmtComplete_congr (trimSpace_blank_before blankCur _)] at complete
        exact absurd ⟨ends, complete⟩ (own.whole before line after shape notLast)
      | kept cut complete whole =>
        have heavy : 0 < weight (joinLines (splitNewlines text)) := by
          rw [weight_splitNewlines]
          exact weight_pos_of_ended ended
        have later := @ih [] (by simp) (by decide) restWritten restQuiet
          restKept
        rw [executedFrom_of_cut curLines own.noComment heavy cut,
          trimSpace_blank_before blankCur, joinLines_splitNewlines,
          show trimSpace (text ++ "\n") = trimSpace text from newline, trimSpace_of_firm firm,
          show executedFrom "" _ = _ from later]
        rfl
      | collected read unended =>
        obtain ⟨last, isLast⟩ := Option.isSome_iff_exists.mp
          (List.getLast?_isSome.mpr (splitNewlines_ne_nil text))
        refine absurd ⟨hasSuffix_last ended isLast, ?_⟩ (unended last isLast)
        rw [stmtComplete_congr (trimSpace_blank_before blankCur _), joinLines_splitNewlines,
          stmtComplete_congr newline]
        exact own.complete

theorem executed_eq (pieces : List Piece) : executed (render pieces) = executedFrom ""
      ((pieces.flatMap Piece.lines).filter fun line => !isComment line) := by
  unfold executed executedFrom
  rw [textLines_render, restoreLoop_filter]

/-- The statements, and what is left of the comments, weigh as much as the
lines that are read. -/
theorem weight_lines
    (noComment : ∀ text, .sql text ∈ pieces → ∀ line ∈ splitNewlines text, isComment line = false) :
    weight (joinLines ((pieces.flatMap Piece.lines).filter fun line => !isComment line)) =
      ((statements pieces).map weight).sum + (pieces.map fun
        | .comment text => weight (joinLines
            ((splitNewlines ("--" ++ text)).filter fun line => !isComment line))
        | _ => 0).sum := by
  induction pieces with
  | nil => rfl
  | cons piece rest ih =>
    have later := ih fun text member =>
      noComment text (List.mem_cons_of_mem _ member)
    rw [List.flatMap_cons, List.filter_append, weight_joinLines_append, later, List.map_cons,
      List.sum_cons]
    cases piece with
    | comment label =>
      have same : statements (.comment label :: rest) = statements rest := rfl
      rw [same]
      simp only [Piece.lines]
      omega
    | gap =>
      have same : statements (.gap :: rest) = statements rest := rfl
      have light : weight (joinLines ((Piece.lines .gap).filter fun line => !isComment line)) =
          0 := by decide
      rw [same, light]
      simp only
      omega
    | sql text =>
      have same : statements (.sql text :: rest) = text :: statements rest := rfl
      have own : (Piece.lines (.sql text)).filter (fun line => !isComment line) =
          splitNewlines text := by
        show (splitNewlines text).filter _ = _
        rw [List.filter_eq_self]
        intro line inText
        simp [noComment text List.mem_cons_self line inText]
      rw [same, own, weight_splitNewlines, List.map_cons, List.sum_cons]
      simp only
      omega

theorem quiet_of_weight
    (light : weight (joinLines ((splitNewlines ("--" ++ text)).filter fun line => !isComment line)) =
      0) : Quiet text := by
  intro line member
  by_cases comment : isComment line = true
  · exact .inr comment
  · left
    have sub : [line].Sublist ((splitNewlines ("--" ++ text)).filter fun line => !isComment line) :=
      List.singleton_sublist.mpr (List.mem_filter.mpr ⟨member, by simp [comment]⟩)
    have atMost := weight_sublist sub
    rw [weight_joinLines_cons] at atMost
    exact weight_eq_zero_iff.mp (by omega)

theorem executed_iff (written : Written pieces) :
    executed (render pieces) = statements pieces ∧ (∀ last, (statements pieces).getLast? = some last →
        Kept last) ↔
      (∀ text, .comment text ∈ pieces → Quiet text) ∧ ∀ text, .sql text ∈ pieces → Kept text := by
  have clean : ∀ line ∈ (pieces.flatMap Piece.lines).filter fun line => !isComment line,
      isComment line = false := fun line member => by simpa using (List.mem_filter.mp member).2
  constructor
  · rintro ⟨exact, lastKept⟩
    rw [executed_eq] at exact
    have noComment : ∀ text, .sql text ∈ pieces → ∀ line ∈ splitNewlines text,
        isComment line = false := by
      intro text member
      refine executedFrom_noComment (fun line inLines => oneLine_lines _ line
        (List.mem_of_mem_filter inLines)) clean text ?_
      rw [exact]
      exact mem_statements.mpr member
    have quiet : ∀ text, .comment text ∈ pieces → Quiet text := by
      have total := @executedFrom_weight [] (by simp) _ clean
      rw [show joinLines [] = "" from rfl, exact, weight_lines noComment] at total
      have nothing : weight "" = 0 := by decide
      intro text member
      apply quiet_of_weight
      have none := List.sum_eq_zero_iff_forall_eq_nat.mp (show (pieces.map fun
        | .comment text => weight (joinLines
            ((splitNewlines ("--" ++ text)).filter fun line => !isComment line))
        | _ => 0).sum = 0 by omega)
      exact none _ (List.mem_map.mpr ⟨.comment text, member, rfl⟩)
    refine ⟨quiet, ?_⟩
    intro text member
    have first := @kept_of_exact pieces [] (by simp) (by decide) written noComment quiet (by
      rw [← exact]
      unfold executedFrom
      rw [show joinLines [] = "" from rfl, restoreLoop_filter])
    have inStatements := mem_statements.mpr member
    rcases List.eq_nil_or_concat (statements pieces) with isNil | ⟨init, last, isConcat⟩
    · rw [isNil] at inStatements
      cases inStatements
    · rw [List.concat_eq_append] at isConcat
      rw [isConcat] at inStatements first lastKept
      rcases List.mem_append.mp inStatements with inInit | isLast
      · exact first text (by rwa [List.dropLast_concat])
      · rw [List.mem_singleton.mp isLast]
        exact lastKept last (List.getLast?_concat ..)
  · rintro ⟨quiet, kept⟩
    constructor
    · have run := @exact_of_kept pieces [] (by simp) (by decide) written quiet kept
      rw [executed_eq, ← run]
      unfold executedFrom
      rw [show joinLines [] = "" from rfl, ← restoreLoop_filter]
    · intro last isLast
      exact kept last (mem_statements.mp (List.mem_of_getLast? isLast))

/-! ### Dumps -/

theorem firm_of_begins (begins : text.toList.head?.map isSpace = some false)
    (ended : hasSuffix text ";" = true) : Firm text ∧ hasSuffix text ";" = true := by
  obtain ⟨start, shape⟩ := (hasSuffix_iff _ _).mp ended
  refine ⟨⟨begins, ?_⟩, ended⟩
  rw [shape, String.toList_append, List.getLast?_append_of_ne_nil _ (by decide)]
  decide

/-- A statement that begins with a known word. -/
theorem firm_keyword {word : String} (rest : String) {closing : String}
    (begins : word.toList.head?.map isSpace = some false) (ended : hasSuffix closing ";" = true) :
    Firm (word ++ rest ++ closing) ∧ hasSuffix (word ++ rest ++ closing) ";" = true := by
  obtain ⟨first, isFirst, solid⟩ := Option.map_eq_some_iff.mp begins
  obtain ⟨start, shape⟩ := (hasSuffix_iff _ _).mp ended
  apply firm_of_begins
  · rw [String.toList_append, String.toList_append, List.append_assoc, List.head?_append, isFirst]
    simpa using solid
  · rw [shape, ← String.append_assoc]
    exact hasSuffix_append _ _

theorem Written.append {first second : List Piece} (firstWritten : Written first)
    (secondWritten : Written second) : Written (first ++ second) := by
  intro text member
  rcases List.mem_append.mp member with inFirst | inSecond
  · exact firstWritten text inFirst
  · exact secondWritten text inSecond

theorem Written.flatMap {α : Type} {items : List α} {pieces : α → List Piece}
    (written : ∀ item, Written (pieces item)) : Written (items.flatMap pieces) := by
  intro text member
  obtain ⟨item, -, inPieces⟩ := List.mem_flatMap.mp member
  exact written item text inPieces

theorem Written.map {α : Type} {items : List α} {write : α → String}
    (written : ∀ item, Firm (write item) ∧ hasSuffix (write item) ";" = true) :
    Written (items.map fun item => .sql (write item)) := by
  intro text member
  obtain ⟨item, -, isText⟩ := List.mem_map.mp member
  rw [← Piece.sql.inj isText]
  exact written item

theorem written_nil : Written [] := by simp [Written]

theorem written_gap : Written [.gap] := by simp [Written]

theorem written_single (written : Firm text ∧ hasSuffix text ";" = true) : Written [.sql text] := by
  intro other member
  rw [Piece.sql.inj (List.mem_singleton.mp member)]
  exact written

variable (options : DumpOptions)

theorem written_dumpTable (table : Table) : Written (dumpTable options table) := by
  have drop := @firm_keyword "DROP TABLE IF EXISTS " (quoteSQLiteIdent table.name) ";"
    (by decide) (by decide)
  have create : Firm (table.createSQL ++ ";") ∧ hasSuffix (table.createSQL ++ ";") ";" = true := by
    have created := @firm_keyword table.createSQL "" ";" table.begins (by decide)
    rwa [String.append_empty] at created
  have comment : Written [.comment (" Table: " ++ table.name)] := by simp [Written]
  have defaults : Firm ("INSERT INTO " ++ quoteSQLiteIdent table.name ++ " DEFAULT VALUES;") ∧
      hasSuffix ("INSERT INTO " ++ quoteSQLiteIdent table.name ++ " DEFAULT VALUES;") ";" = true :=
    firm_keyword _ (by decide) (by decide)
  have insert : Firm (insertStatement table) ∧ hasSuffix (insertStatement table) ";" = true := by
    have written := @firm_keyword "INSERT INTO " (quoteSQLiteIdent table.name ++ " (" ++
      ", ".intercalate (table.insertCols.map quoteSQLiteIdent) ++ ") VALUES\n" ++
      ",\n".intercalate (table.rows.map fun row =>
        "(" ++ ", ".intercalate (row.map Value.quote) ++ ")")) ";" (by decide) (by decide)
    unfold insertStatement
    simpa only [String.append_assoc] using written
  unfold dumpTable
  refine Written.append ?_ ?_
  · exact (written_single drop).append (comment.append ((written_single create).append written_gap))
  · split
    · exact written_nil
    · unfold tableRows dumpDefaultRows
      split
      · split
        · exact written_nil
        · exact (Written.map fun _ => defaults).append written_gap
      · split
        · exact written_nil
        · exact (written_single insert).append written_gap

theorem written_dumpSchemaObject (object : SchemaObject) : Written (dumpSchemaObject object) := by
  have drop : Firm ("DROP " ++ object.kind.keyword ++ " IF EXISTS " ++
        quoteSQLiteIdent object.name ++ ";") ∧
      hasSuffix ("DROP " ++ object.kind.keyword ++ " IF EXISTS " ++
        quoteSQLiteIdent object.name ++ ";") ";" = true := by
    have dropped := @firm_keyword "DROP " (object.kind.keyword ++ " IF EXISTS " ++
      quoteSQLiteIdent object.name) ";" (by decide) (by decide)
    simpa only [String.append_assoc] using dropped
  have create : Firm (trimSuffix (trimSpace object.sql) ";" ++ ";") ∧
      hasSuffix (trimSuffix (trimSpace object.sql) ";" ++ ";") ";" = true := by
    apply firm_of_begins _ (hasSuffix_append _ _)
    -- Trimmed text begins with a character that is not blank, if there is one.
    have head : ∀ rest, (trimSpace object.sql).toList = (trimSuffix (trimSpace object.sql) ";").toList
        ++ rest → ((trimSuffix (trimSpace object.sql) ";" ++ ";").toList.head?.map isSpace) =
          some false := by
      intro rest shape
      rw [String.toList_append]
      cases text : (trimSuffix (trimSpace object.sql) ";").toList with
      | nil => decide
      | cons first others =>
        obtain ⟨before, after, -, dropped⟩ := trimSpace_parts object.sql
        rw [shape, text] at dropped
        have solid := List.head?_dropWhile_not isSpace object.sql.toList
        rw [dropped] at solid
        simpa using solid
    rcases trimSuffix_cases (trimSpace object.sql) ";" with same | shape
    · exact head [] (by rw [same, List.append_nil])
    · refine head [';'] ?_
      conv_lhs => rw [shape]
      rw [String.toList_append]
      rfl
  exact (written_single drop).append ((written_single create).append written_gap)

theorem written_dump (db : Database) : Written (dump options db) := by
  have banner : Written (dumpBanner db) := by simp [Written, dumpBanner]
  have header : Written [.sql "PRAGMA foreign_keys=OFF;", .sql "BEGIN TRANSACTION;", .gap] :=
    (written_single (by decide)).append ((written_single (by decide)).append written_gap)
  have stats : Written (dumpQueryStats options db) := by
    have each : ∀ stat, Firm (statStatement stat) ∧ hasSuffix (statStatement stat) ";" = true := by
      intro stat
      have written := @firm_keyword "INSERT INTO sqlite_stat1 (tbl, idx, stat) VALUES ("
        (stat.table.quote ++ ", " ++ stat.idx.quote ++ ", " ++ stat.stat.quote) ");"
        (by decide) (by decide)
      unfold statStatement
      simpa only [String.append_assoc] using written
    unfold dumpQueryStats
    simp only
    split
    · exact written_nil
    · exact (((written_single (by decide)).append (written_single (by decide))).append
        (Written.map each)).append written_gap
  have sequences : Written (dumpSequences options db) := by
    have each : ∀ sequence, Firm (sequenceStatement sequence) ∧
        hasSuffix (sequenceStatement sequence) ";" = true := by
      intro sequence
      have written := @firm_keyword "UPDATE sqlite_sequence SET seq="
        (toString sequence.2 ++ " WHERE name='" ++ replaceAll sequence.1 "'" "''") "';"
        (by decide) (by decide)
      unfold sequenceStatement
      simpa only [String.append_assoc] using written
    unfold dumpSequences
    simp only
    refine (Written.map each).append ?_
    split
    · exact written_nil
    · exact written_gap
  have tables := @Written.flatMap _ (db.tables.filter fun table => options.included table.name) _
    (written_dumpTable options)
  have objects : Written (dumpSchemaObjects options db) := Written.flatMap written_dumpSchemaObject
  exact (((((banner.append header).append tables).append stats).append sequences).append
    objects).append (written_single (by decide))

theorem kept_commit : Kept "COMMIT;" where
  noComment := by decide +kernel
  whole := by
    intro before line after shape notLast
    have single : splitNewlines "COMMIT;" = ["COMMIT;"] := by decide +kernel
    have sizes := congrArg List.length (single.symm.trans shape)
    cases after with
    | nil => exact absurd rfl notLast
    | cons next others =>
      simp only [List.length_append, List.length_cons, List.length_nil] at sizes
      omega
  complete := by decide +kernel

/-- Every dump ends in a statement that is kept. -/
theorem kept_last (db : Database) (last : String)
    (atEnd : (statements (dump options db)).getLast? = some last) : Kept last := by
  have isLast : (statements (dump options db)).getLast? = some "COMMIT;" := by
    unfold statements dump
    rw [List.filterMap_append]
    exact List.getLast?_concat ..
  rw [← Option.some.inj (isLast.symm.trans atEnd)]
  exact kept_commit

theorem restoresExactly_iff (options : DumpOptions) (db : Database) : RestoresExactly options db ↔
      (∀ text, .comment text ∈ dump options db → Quiet text) ∧
        ∀ text, .sql text ∈ dump options db → Kept text := by
  rw [← executed_iff (written_dump options db)]
  exact ⟨fun exact => ⟨exact, kept_last options db⟩, fun both => both.1⟩

def notesTable (rows : List (List Value)) : Table where
  name := "notes"
  createSQL := "CREATE TABLE notes (body TEXT)"
  begins := by decide
  insertCols := ["body"]
  rows := rows

def notesDatabase (rows : List (List Value)) (objects : List SchemaObject) : Database where
  path := "/data/notes.db"
  server := "SQLite 3.45.1"
  version := "5.0.0"
  dumped := "2026-01-01T00:00:00Z"
  tables := [notesTable rows]
  objects := objects

/-- A trigger with a CASE in its body. -/
def caseTrigger : SchemaObject where
  kind := .trigger
  name := "count"
  tblName := "notes"
  sql := "CREATE TRIGGER count AFTER INSERT ON notes BEGIN\nSELECT CASE 1 WHEN 1 THEN 2 END;\n" ++
    "SELECT 3;\nEND"

theorem mem_dump_of_table {options : DumpOptions} {db : Database} {table : Table} {piece : Piece}
    (listed : table ∈ db.tables) (included : options.included table.name = true)
    (member : piece ∈ dumpTable options table) : piece ∈ dump options db := by
  have inTables : piece ∈ (db.tables.filter fun table => options.included table.name).flatMap
      (dumpTable options) :=
    List.mem_flatMap.mpr ⟨table, List.mem_filter.mpr ⟨listed, included⟩, member⟩
  simp [dump, dumpBody, inTables]

theorem mem_dump_of_object {options : DumpOptions} {db : Database} {object : SchemaObject}
    {piece : Piece} (listed : object ∈ db.objects)
    (included : options.included object.tblName = true) (member : piece ∈ dumpSchemaObject object) :
    piece ∈ dump options db := by
  have inObjects : piece ∈ dumpSchemaObjects options db :=
    List.mem_flatMap.mpr ⟨object, List.mem_filter.mpr ⟨listed, included⟩, member⟩
  simp [dump, dumpBody, inObjects]

/-- A line of a text is left out, and a trigger is cut in its body. -/
theorem literal_and_trigger_cut :
    ¬ RestoresExactly {} (notesDatabase [[.text "a\n-- b"]] []) ∧
      ¬ RestoresExactly {} (notesDatabase [] [caseTrigger]) := by
  have passes : ∀ db text, RestoresExactly {} db → .sql text ∈ dump {} db → Kept text := by
    intro db text exact member
    exact ((executed_iff (written_dump {} db)).mp ⟨exact, kept_last {} db⟩).2 text member
  constructor
  · intro exact
    have written : .sql (insertStatement (notesTable [[.text "a\n-- b"]])) ∈
        dumpTable {} (notesTable [[.text "a\n-- b"]]) :=
      List.mem_append_right _ List.mem_cons_self
    have kept := passes _ _ exact (mem_dump_of_table (List.mem_singleton_self _) rfl written)
    exact absurd (kept.noComment "-- b');" (by decide +kernel)) (by decide +kernel)
  · intro exact
    have written : .sql (trimSuffix (trimSpace caseTrigger.sql) ";" ++ ";") ∈
        dumpSchemaObject caseTrigger :=
      List.mem_cons_of_mem _ List.mem_cons_self
    have kept := passes _ _ exact (mem_dump_of_object (List.mem_singleton_self _) rfl written)
    have unended : hasSuffix (trimSpace caseTrigger.sql) ";" = false := by
      simp only [caseTrigger, hasSuffix, trimSpace, String.toList_append, String.toList_ofList]
      repeat rw [String.toList_ofList]
      decide +kernel
    rw [trimSuffix_of_not_hasSuffix unended] at kept
    have lines : splitNewlines (trimSpace caseTrigger.sql ++ ";") =
        ["CREATE TRIGGER count AFTER INSERT ON notes BEGIN"] ++
          "SELECT CASE 1 WHEN 1 THEN 2 END;" :: ["SELECT 3;", "END;"] := by
      simp only [caseTrigger, splitNewlines, trimSpace, String.toList_append, String.toList_ofList]
      repeat rw [String.toList_ofList]
      decide +kernel
    refine kept.whole _ _ _ lines (by simp) ⟨by decide +kernel, stmtComplete_of_end ?_⟩
    simp only [hasSuffix, toUpper, trimSpace, joinLines, String.toList_ofList]
    repeat rw [String.toList_ofList]
    decide +kernel

end DbBackup.Engine.Sqlite
