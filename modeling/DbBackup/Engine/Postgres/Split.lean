import DbBackup.Engine.Postgres.Stream

/-!
Owns the cuts the restorer makes in a script of SQL statements. A statement is
a list of lexemes: text outside quotes, strings, quoted identifiers and dollar
quotes.

Contract: exactly when the statements of a script are the statements the
server receives (`splitsExactly_iff`). The restorer sees lines and dollar tags
with a word in them, nothing else, so a condition on the lines of each
statement decides it.

The proof weighs texts by their length. What is sent for a run of lines never
weighs more than the lines, and a script that arrives as it was written leaves
no slack at any line.
-/

set_option linter.all false

namespace DbBackup.Engine.Postgres.Split

open Lib.GoString Lib.LineScan Engine.Postgres.Stream

/-! ### Scripts -/

inductive Lexeme where
  | plain (text : String)
  | string (body : String)
  | identifier (body : String)
  | dollar (tag body : String)
deriving DecidableEq

def Lexeme.text : Lexeme → String
  | .plain text => text
  | .string body => "'" ++ replaceAll body "'" "''" ++ "'"
  | .identifier body => "\"" ++ replaceAll body "\"" "\"\"" ++ "\""
  | .dollar tag body => "$" ++ tag ++ "$" ++ body ++ "$" ++ tag ++ "$"

/-- Outside quotes there is no quote, comment or semicolon; a dollar quote ends
where its tag comes again. -/
def Lexeme.WellFormed : Lexeme → Prop
  | .plain text => (∀ c ∈ text.toList, c ≠ '\'' ∧ c ≠ '"' ∧ c ≠ '$' ∧ c ≠ ';') ∧
      contains text "--" = false ∧ contains text "/*" = false
  | .string _ | .identifier _ => True
  | .dollar tag body => (∀ c ∈ tag.toList, isTagChar c = true) ∧
      contains (body ++ "$" ++ tag) ("$" ++ tag ++ "$") = false

def lexemesText (lexemes : List Lexeme) : String := String.join (lexemes.map Lexeme.text)

/-- A statement without the blank space before it. -/
structure Statement where
  lexemes : List Lexeme
  wellFormed : ∀ lexeme ∈ lexemes, lexeme.WellFormed
  begins : (lexemesText lexemes).toList.head?.map isSpace = some false

def Statement.text (s : Statement) : String := lexemesText s.lexemes ++ ";"

def script (stmts : List Statement) : String :=
  String.join (stmts.map fun s => s.text ++ "\n")

/-- The server receives the statements as they are written; blank space around
them does not count. -/
def SplitsExactly (stmts : List Statement) : Prop :=
  (sentStatements (script stmts)).map Sent.statement = stmts.map fun s => .sql s.text

/-! ### Lines that stay together -/

/-- The dollar tag that is open after some lines, as `updateDollarTag` tells. -/
def tagAfter (lines : List String) : String :=
  lines.foldl (fun tag line => updateDollarTag line tag) ""

/-- No line is taken for a comment or a COPY header or loses a carriage return,
and no line before the last ends in a semicolon outside a dollar quote. -/
def Undivided (lines : List String) : Prop :=
  ∀ before line after, lines = before ++ line :: after →
    isComment line = false ∧ hasSuffix line "\r" = false ∧
      (tagAfter before = "" → isCopyHeader line = false) ∧
      (after ≠ [] → ¬ (tagAfter (before ++ [line]) = "" ∧ endsStatement line = true))

/-- Every statement stays together, and each but the last leaves no dollar
quote open. -/
structure KeptApart (texts : List String) : Prop where
  undivided : ∀ text ∈ texts, Undivided (splitNewlines text)
  closed : ∀ text ∈ texts.dropLast, tagAfter (splitNewlines text) = ""

theorem tagAfter_concat (lines : List String) (line : String) :
    tagAfter (lines ++ [line]) = updateDollarTag line (tagAfter lines) := by
  simp [tagAfter]

theorem statement_firm (s : Statement) : Firm s.text := by
  obtain ⟨first, isFirst, solid⟩ := Option.map_eq_some_iff.mp s.begins
  constructor
  · unfold Statement.text
    rw [String.toList_append, List.head?_append, isFirst]
    simpa using solid
  · unfold Statement.text
    rw [String.toList_append, List.getLast?_append_of_ne_nil _ (by decide)]
    decide

/-! ### What one group of lines sends -/

theorem updateDollarTag_empty (tag : String) : updateDollarTag "" tag = tag := by
  unfold updateDollarTag
  cases shape : tag.toList with
  | nil =>
    have isEmpty : tag = "" := String.toList_injective shape
    rw [isEmpty]
    decide
  | cons c rest =>
    have none : afterFirst (c :: rest) [] = none := by simp [afterFirst, indexOf]
    rw [String.toList_empty, List.length_nil, followTag, none, ← shape, String.ofList_toList]
    intro isNil
    cases isNil

theorem flush_blank (cur : List String) : splitLoop.flush (cur ++ [""]) = splitLoop.flush cur := by
  unfold splitLoop.flush
  rw [joinLines_concat, String.append_empty]
  have trimmed := @trimSpace_append_blank_char (joinLines cur) '\n' (by decide)
  rw [show trimSpace (joinLines cur ++ "\n") = trimSpace (joinLines cur) from trimmed]

/-- The empty line after the last newline of a group changes nothing. -/
theorem splitLoop_blank (cur : List String) (tag : String) (lines : List String) :
    splitLoop cur tag (lines ++ [""]) = splitLoop cur tag lines := by
  have notEnd : endsStatement "" = false := by decide
  induction lines generalizing cur tag with
  | nil =>
    simp only [List.nil_append, splitLoop, updateDollarTag_empty, notEnd, Bool.false_eq_true,
      and_false, if_false, flush_blank]
  | cons line rest ih =>
    rw [List.cons_append, splitLoop, splitLoop]
    simp only [ih]

/-- No line before the last ends a statement; `tag` is open before them. -/
def EndsLate (tag : String) (lines : List String) : Prop :=
  ∀ before line after, lines = before ++ line :: after → after ≠ [] →
    ¬ ((before ++ [line]).foldl (fun tag line => updateDollarTag line tag) tag = "" ∧
      endsStatement line = true)

variable {lines : List String}

theorem splitLoop_endsLate {tag : String} (late : EndsLate tag lines)
    (cur : List String) : splitLoop cur tag lines = splitLoop.flush (cur ++ lines) := by
  have nothing : splitLoop.flush [] = [] := by decide
  induction lines generalizing cur tag with
  | nil => rw [splitLoop, List.append_nil]
  | cons line rest ih =>
    rw [splitLoop]
    by_cases isLast : rest = []
    · subst isLast
      split
      · rw [splitLoop, nothing, List.append_nil]
      · rw [splitLoop]
    · have notEnd := late [] line rest rfl isLast
      simp only [List.nil_append, List.foldl_cons, List.foldl_nil] at notEnd
      rw [if_neg notEnd, ih]
      · rw [List.append_assoc, List.singleton_append]
      · intro before other after shape notLast
        have early := late (line :: before) other after (by rw [shape]; rfl) notLast
        simpa using early

/-- A group of lines sends at most one statement. -/
theorem execStmtGroup_lines (oneLine : ∀ line ∈ lines, OneLine line) (late : EndsLate "" lines) :
    execStmtGroup (joinLines lines) =
      ((splitLoop.flush lines).map withoutComments).filter fun clean => trimSpace clean ≠ "" := by
  have shape := splitNewlines_joinLines_append oneLine ""
  rw [String.append_empty, show splitNewlines "" = [""] from by simp [splitNewlines]] at shape
  unfold execStmtGroup splitStatements
  rw [shape, splitLoop_blank, splitLoop_endsLate late, List.nil_append]

/-! ### Weights -/

theorem size_trimSpace_le (text : String) : (trimSpace text).utf8ByteSize ≤ text.utf8ByteSize := by
  obtain ⟨before, after, shape, -⟩ := trimSpace_parts text
  have sizes := congrArg String.utf8ByteSize shape
  rw [String.utf8ByteSize_append, String.utf8ByteSize_append] at sizes
  omega

theorem trimSpace_newline (text : String) : trimSpace (text ++ "\n") = trimSpace text :=
  @trimSpace_append_blank_char text '\n' (by decide)

theorem joinLines_cons (line : String) (rest : List String) :
    joinLines (line :: rest) = line ++ "\n" ++ joinLines rest := by
  apply String.toList_injective
  simp [joinLines]

theorem size_newline (text : String) : (text ++ "\n").utf8ByteSize = text.utf8ByteSize + 1 := by
  rw [String.utf8ByteSize_append]
  rfl

theorem size_joinLines_cons (line : String) (rest : List String) :
    (joinLines (line :: rest)).utf8ByteSize =
      line.utf8ByteSize + 1 + (joinLines rest).utf8ByteSize := by
  rw [joinLines_cons, String.utf8ByteSize_append, size_newline]

theorem size_joinLines_concat (lines : List String) (last : String) :
    (joinLines (lines ++ [last])).utf8ByteSize =
      (joinLines lines).utf8ByteSize + (last.utf8ByteSize + 1) := by
  rw [joinLines_concat, size_newline, String.utf8ByteSize_append]
  omega

/-- Leaving lines out makes a text lighter. -/
theorem size_joinLines_filter (keeps : String → Bool) (lines : List String) :
    (joinLines (lines.filter keeps)).utf8ByteSize ≤ (joinLines lines).utf8ByteSize ∧
      ((joinLines (lines.filter keeps)).utf8ByteSize = (joinLines lines).utf8ByteSize →
        ∀ line ∈ lines, keeps line = true) := by
  induction lines with
  | nil => simp
  | cons line rest ih =>
    obtain ⟨lighter, tight⟩ := ih
    rw [size_joinLines_cons]
    by_cases kept : keeps line = true
    · rw [List.filter_cons_of_pos kept, size_joinLines_cons]
      refine ⟨by omega, fun same other member => ?_⟩
      rcases List.mem_cons.mp member with rfl | inRest
      · exact kept
      · exact tight (by omega) other inRest
    · rw [List.filter_cons_of_neg kept]
      exact ⟨by omega, fun same => by omega⟩

/-- A joined list of lines is empty, or ends in a newline. -/
theorem joinLines_cases (lines : List String) :
    lines = [] ∨ ∃ text, joinLines lines = text ++ "\n" := by
  rcases List.eq_nil_or_concat lines with rfl | ⟨init, last, rfl⟩
  · exact .inl rfl
  · rw [List.concat_eq_append, joinLines_concat]
    exact .inr ⟨_, rfl⟩

/-- The sent text of a group is lighter than its lines, unless it is them. -/
theorem size_withoutComments_flush {piece : String}
    (oneLine : ∀ line ∈ lines, OneLine line) (flushed : piece ∈ splitLoop.flush lines)
    (solid : trimSpace (withoutComments piece) ≠ "") :
    (trimSpace (withoutComments piece)).utf8ByteSize + 1 ≤ (joinLines lines).utf8ByteSize ∧
      ((trimSpace (withoutComments piece)).utf8ByteSize + 1 = (joinLines lines).utf8ByteSize →
        trimSpace (withoutComments piece) ++ "\n" = joinLines lines ∧
          ∀ line ∈ lines, isComment line = false) := by
  have isPiece : piece = trimSpace (joinLines lines) := by
    unfold splitLoop.flush at flushed
    simp only at flushed
    split at flushed
    · cases flushed
    · exact List.mem_singleton.mp flushed
  rcases joinLines_cases lines with rfl | ⟨text, shape⟩
  · rw [isPiece] at solid
    exact absurd (by decide) solid
  · rw [shape, trimSpace_newline] at isPiece
    obtain ⟨lighter, tight⟩ := size_joinLines_filter (fun l => !isComment l) (splitNewlines piece)
    rw [joinLines_splitNewlines, size_newline] at lighter tight
    have isKept : withoutComments piece =
        joinLines ((splitNewlines piece).filter fun l => !isComment l) := rfl
    rcases joinLines_cases ((splitNewlines piece).filter fun l => !isComment l) with
      nothing | ⟨kept, keptShape⟩
    · rw [isKept, nothing] at solid
      exact absurd (by decide) solid
    · rw [keptShape, size_newline] at lighter tight
      rw [isKept, keptShape, trimSpace_newline, shape, size_newline]
      have keptLight := size_trimSpace_le kept
      have textLight := size_trimSpace_le text
      rw [← isPiece] at textLight
      refine ⟨by omega, fun same => ?_⟩
      have wholeText : piece = text := by
        rw [isPiece]
        exact trimSpace_eq_self (by rw [← isPiece]; omega)
      have noComment := tight (by omega)
      have allKept : (splitNewlines piece).filter (fun l => !isComment l) = splitNewlines piece :=
        List.filter_eq_self.mpr noComment
      have wholeKept : kept = piece := by
        rw [allKept, joinLines_splitNewlines] at keptShape
        have chars := congrArg String.toList keptShape
        rw [String.toList_append, String.toList_append] at chars
        exact (String.toList_injective (List.append_cancel_right chars)).symm
      have firmKept : trimSpace kept = kept := trimSpace_eq_self (by omega)
      refine ⟨by rw [firmKept, wholeKept, wholeText], ?_⟩
      intro line member
      have inPiece : line ∈ splitNewlines piece := by
        have lines := splitNewlines_joinLines_append oneLine ""
        rw [String.append_empty, shape, ← wholeText] at lines
        have split := splitNewlines_append piece ""
        rw [String.append_empty] at split
        rw [split] at lines
        rw [List.append_cancel_right lines]
        exact member
      simpa using noComment line inPiece

/-! ### What a line sends -/

/-- The weight of what is sent; a statement counts with a newline after it. -/
def weight (sent : List Sent) : Nat :=
  (sent.map fun
    | .exec sql => (trimSpace sql).utf8ByteSize + 1
    | .copy _ _ => 0).sum

@[simp] theorem weight_nil : weight [] = 0 := rfl

theorem weight_append (first second : List Sent) :
    weight (first ++ second) = weight first + weight second := by
  simp [weight]

theorem weight_copy (header data : String) : weight (pgExecCopy header data) = 0 := by
  unfold pgExecCopy
  split
  · rfl
  · split
    · rfl
    · rfl

/-- The lines the restorer has collected and not sent. -/
structure Reading (state : StreamState) (cur : List String) : Prop where
  stmt : state.stmt = joinLines cur
  tag : state.tag = tagAfter cur
  oneLine : ∀ line ∈ cur, OneLine line
  open_ : ∀ before line after, cur = before ++ line :: after →
    ¬ (tagAfter (before ++ [line]) = "" ∧ endsStatement line = true)
  outsideCopy : state.inCopy = true → cur = []

variable {state : StreamState} {cur : List String}

theorem Reading.endsLate (reading : Reading state cur) :
    EndsLate "" cur := fun before line after shape _ => reading.open_ before line after shape

theorem Reading.endsLate_concat
    (reading : Reading state cur) (line : String) : EndsLate "" (cur ++ [line]) := by
  intro before other after shape notLast
  rcases List.eq_nil_or_concat after with rfl | ⟨init, last, rfl⟩
  · exact absurd rfl notLast
  · rw [List.concat_eq_append, ← List.cons_append, ← List.append_assoc] at shape
    have sameStart := (List.append_inj' shape rfl).1
    exact reading.open_ before other init sameStart

/-- A group is lighter than its lines, unless the statement it sends is its
lines and none of them is a comment. -/
theorem weight_group (oneLine : ∀ line ∈ lines, OneLine line) (late : EndsLate "" lines) :
    weight ((execStmtGroup (joinLines lines)).map .exec) ≤ (joinLines lines).utf8ByteSize ∧
      (lines ≠ [] →
        weight ((execStmtGroup (joinLines lines)).map .exec) = (joinLines lines).utf8ByteSize →
        ∃ sql, execStmtGroup (joinLines lines) = [sql] ∧
          trimSpace sql ++ "\n" = joinLines lines ∧ ∀ line ∈ lines, isComment line = false) := by
  rw [execStmtGroup_lines oneLine late]
  have atMostOne : splitLoop.flush lines = [] ∨ ∃ piece, splitLoop.flush lines = [piece] := by
    unfold splitLoop.flush
    simp only
    split
    · exact .inl rfl
    · exact .inr ⟨_, rfl⟩
  have positive : lines ≠ [] → 0 < (joinLines lines).utf8ByteSize := by
    intro notEmpty
    rcases joinLines_cases lines with isNil | ⟨text, shape⟩
    · exact absurd isNil notEmpty
    · rw [shape, size_newline]
      omega
  rcases atMostOne with nothing | ⟨piece, isPiece⟩
  · rw [nothing]
    exact ⟨Nat.zero_le _, fun notEmpty same => absurd same (by
      have := positive notEmpty
      simp only [List.map_nil, List.filter_nil, weight_nil]
      omega)⟩
  · rw [isPiece, List.map_singleton]
    by_cases solid : trimSpace (withoutComments piece) = ""
    · rw [List.filter_cons_of_neg (by simpa using solid)]
      exact ⟨Nat.zero_le _, fun notEmpty same => absurd same (by
        have := positive notEmpty
        simp only [List.map_nil, List.filter_nil, weight_nil]
        omega)⟩
    · obtain ⟨light, tight⟩ := size_withoutComments_flush oneLine
        (by rw [isPiece]; exact List.mem_singleton_self _) solid
      rw [List.filter_cons_of_pos (by simpa using solid), List.filter_nil, List.map_singleton]
      have isWeight : weight [.exec (withoutComments piece)] =
          (trimSpace (withoutComments piece)).utf8ByteSize + 1 := by
        simp [weight]
      rw [isWeight]
      exact ⟨light, fun _ same => ⟨_, rfl, tight same⟩⟩

theorem size_trimSuffix (text : String) : (trimSuffix text "\r").utf8ByteSize ≤ text.utf8ByteSize ∧
      ((trimSuffix text "\r").utf8ByteSize = text.utf8ByteSize →
        hasSuffix text "\r" = false ∧ trimSuffix text "\r" = text) := by
  by_cases ended : hasSuffix text "\r" = true
  · obtain ⟨start, shape⟩ := (hasSuffix_iff _ _).mp ended
    rw [shape, trimSuffix_append, String.utf8ByteSize_append]
    have one : "\r".utf8ByteSize = 1 := by decide
    exact ⟨by omega, fun same => by omega⟩
  · have notEnded := Bool.eq_false_iff.mpr ended
    rw [trimSuffix_of_not_hasSuffix notEnded]
    exact ⟨Nat.le_refl _, fun _ => ⟨notEnded, rfl⟩⟩

/-- One line without slack: it is collected, or it ends the group it is in. -/
inductive TightLine (cur : List String) (line : String) : List Sent → List String → Prop where
  | collected : TightLine cur line [] (cur ++ [line])
  | sent (sql : String) (isText : trimSpace sql ++ "\n" = joinLines (cur ++ [line]))
      (noComment : ∀ other ∈ cur ++ [line], isComment other = false)
      (closes : tagAfter (cur ++ [line]) = "") : TightLine cur line [.exec sql] []

theorem reading_nil (noStmt : state.stmt = "") (noTag : state.tag = "") : Reading state [] where
  stmt := noStmt
  tag := noTag
  oneLine := by simp
  open_ := by simp
  outsideCopy := fun _ => rfl

theorem restoreLine_weight (reading : Reading state cur) {line : String} (oneLine : OneLine line) :
    ∃ cur', Reading (restoreLine state line).1 cur' ∧
      weight (restoreLine state line).2 + (joinLines cur').utf8ByteSize ≤
        (joinLines cur).utf8ByteSize + (line.utf8ByteSize + 1) ∧
      (weight (restoreLine state line).2 + (joinLines cur').utf8ByteSize =
          (joinLines cur).utf8ByteSize + (line.utf8ByteSize + 1) →
        hasSuffix line "\r" = false ∧ (tagAfter cur = "" → isCopyHeader line = false) ∧
          TightLine cur line (restoreLine state line).2 cur') := by
  have emptyLines : (joinLines []).utf8ByteSize = 0 := by decide
  by_cases inCopy : state.inCopy = true
  · -- Lines of data weigh nothing.
    have isNil := reading.outsideCopy inCopy
    subst isNil
    have weightless : weight (restoreLine state line).2 = 0 := by
      unfold restoreLine
      simp only [inCopy, if_true]
      split
      · exact weight_copy _ _
      · split
        · rfl
        · rfl
    refine ⟨[], ?_, by omega, fun same => by omega⟩
    unfold restoreLine
    simp only [inCopy, if_true]
    split
    · exact reading_nil rfl reading.tag
    · split
      · exact reading_nil reading.stmt reading.tag
      · exact reading_nil reading.stmt reading.tag
  · have notCopy := Bool.eq_false_iff.mpr inCopy
    obtain ⟨lineLight, lineTight⟩ := size_trimSuffix line
    by_cases isHeader : state.tag = "" ∧ isCopyHeader (trimSuffix line "\r") = true
    · have stepped : restoreLine state line =
          ({ state with stmt := "", copyHeader := trimSuffix (trimSuffix line "\r") ";",
                        inCopy := true }, (execStmtGroup state.stmt).map .exec) := by
        unfold restoreLine
        simp only [notCopy, Bool.false_eq_true, if_false]
        rw [if_pos isHeader]
      have light := (weight_group reading.oneLine reading.endsLate).1
      rw [← reading.stmt] at light
      rw [stepped]
      refine ⟨[], reading_nil rfl isHeader.1, ?_, fun same => ?_⟩
      · rw [reading.stmt] at light ⊢
        simp only
        omega
      · rw [reading.stmt] at light same
        simp only at same
        omega
    · have trimmedLine : OneLine (trimSuffix line "\r") := by
        rcases trimSuffix_cases line "\r" with same | shape
        · rwa [same]
        · intro newline
          rw [shape] at oneLine
          exact oneLine (by simp [newline])
      have joined : state.stmt ++ trimSuffix line "\r" ++ "\n" =
          joinLines (cur ++ [trimSuffix line "\r"]) := by
        rw [reading.stmt, joinLines_concat]
      have isTag : updateDollarTag (trimSuffix line "\r") state.tag =
          tagAfter (cur ++ [trimSuffix line "\r"]) := by
        rw [tagAfter_concat, reading.tag]
      have allOneLine : ∀ other ∈ cur ++ [trimSuffix line "\r"], OneLine other := by
        intro other member
        rcases List.mem_append.mp member with inCur | isLast
        · exact reading.oneLine other inCur
        · rwa [List.mem_singleton.mp isLast]
      have size := size_joinLines_concat cur (trimSuffix line "\r")
      have notHeader : hasSuffix line "\r" = false → trimSuffix line "\r" = line →
          tagAfter cur = "" → isCopyHeader line = false := by
        intro _ sameLine noTag
        by_contra header
        rw [Bool.not_eq_false] at header
        exact isHeader ⟨reading.tag.trans noTag, by rw [sameLine]; exact header⟩
      by_cases ends : tagAfter (cur ++ [trimSuffix line "\r"]) = "" ∧
          endsStatement (trimSuffix line "\r") = true
      · have stepped : restoreLine state line = ({ state with tag := "", stmt := "" },
            (execStmtGroup (joinLines (cur ++ [trimSuffix line "\r"]))).map .exec) := by
          unfold restoreLine
          simp only [notCopy, Bool.false_eq_true, if_false]
          rw [if_neg isHeader, isTag, if_pos ends, joined, ends.1]
        obtain ⟨light, tight⟩ := weight_group allOneLine
          (reading.endsLate_concat (trimSuffix line "\r"))
        rw [stepped]
        refine ⟨[], reading_nil rfl rfl, by simp only; omega, fun same => ?_⟩
        simp only at same
        obtain ⟨noReturn, sameLine⟩ := lineTight (by omega)
        obtain ⟨sql, isSql, isText, noComment⟩ := tight (by simp) (by omega)
        refine ⟨noReturn, notHeader noReturn sameLine, ?_⟩
        rw [isSql, List.map_singleton]
        rw [sameLine] at isText noComment ends
        exact .sent sql isText noComment ends.1
      · have stepped : restoreLine state line =
            ({ state with tag := tagAfter (cur ++ [trimSuffix line "\r"]),
                          stmt := joinLines (cur ++ [trimSuffix line "\r"]) }, []) := by
          unfold restoreLine
          simp only [notCopy, Bool.false_eq_true, if_false]
          rw [if_neg isHeader, isTag, if_neg ends, joined]
        rw [stepped]
        refine ⟨cur ++ [trimSuffix line "\r"], ⟨rfl, rfl, allOneLine, ?_, ?_⟩, ?_, fun same => ?_⟩
        · intro before other after shape
          rcases List.eq_nil_or_concat after with rfl | ⟨init, last, rfl⟩
          · obtain ⟨sameStart, sameLast⟩ := List.append_inj' shape rfl
            rw [← sameStart, ← (List.cons.inj sameLast).1]
            exact ends
          · rw [List.concat_eq_append, ← List.cons_append, ← List.append_assoc] at shape
            exact reading.open_ before other init (List.append_inj' shape rfl).1
        · exact fun isCopy => absurd isCopy inCopy
        · simp only [weight_nil]
          omega
        · simp only [weight_nil] at same
          obtain ⟨noReturn, sameLine⟩ := lineTight (by omega)
          refine ⟨noReturn, notHeader noReturn sameLine, ?_⟩
          rw [sameLine]
          exact .collected

/-! ### What a run of lines sends -/

/-- Everything the lines send, and what is sent at the end. -/
def sendsFrom (state : StreamState) (lines : List String) : List Sent :=
  (restoreLines state lines).2 ++ (execStmtGroup (restoreLines state lines).1.stmt).map .exec

theorem sendsFrom_cons (state : StreamState) (line : String) (rest : List String) :
    sendsFrom state (line :: rest) =
      (restoreLine state line).2 ++ sendsFrom (restoreLine state line).1 rest := by
  unfold sendsFrom
  rw [restoreLines]
  simp only [List.append_assoc]

theorem weight_sendsFrom (reading : Reading state cur)  (oneLine : ∀ line ∈ lines, OneLine line) :
    weight (sendsFrom state lines) ≤
      (joinLines cur).utf8ByteSize + (joinLines lines).utf8ByteSize := by
  induction lines generalizing state cur with
  | nil =>
    have light := (weight_group reading.oneLine reading.endsLate).1
    rw [← reading.stmt] at light ⊢
    exact Nat.le_trans light (Nat.le_add_right _ _)
  | cons line rest ih =>
    obtain ⟨cur', reading', light, -⟩ :=
      restoreLine_weight reading (oneLine line List.mem_cons_self)
    have later := ih reading' (List.forall_mem_cons.mp oneLine).2
    rw [sendsFrom_cons, weight_append, size_joinLines_cons]
    omega

/-- A sent statement with the newline after it. -/
def sentText : Sent → String
  | .exec sql => trimSpace sql ++ "\n"
  | .copy _ _ => ""

/-- No line so far has lost a carriage return or was a COPY header. -/
def Untouched (cur : List String) : Prop :=
  ∀ before line after, cur = before ++ line :: after →
    hasSuffix line "\r" = false ∧ (tagAfter before = "" → isCopyHeader line = false)

theorem Untouched.concat (untouched : Untouched cur) {line : String}
    (noReturn : hasSuffix line "\r" = false)
    (notHeader : tagAfter cur = "" → isCopyHeader line = false) : Untouched (cur ++ [line]) := by
  intro before other after shape
  rcases List.eq_nil_or_concat after with rfl | ⟨init, last, rfl⟩
  · obtain ⟨sameStart, sameLast⟩ := List.append_inj' shape rfl
    rw [← sameStart, ← (List.cons.inj sameLast).1]
    exact ⟨noReturn, notHeader⟩
  · rw [List.concat_eq_append, ← List.cons_append, ← List.append_assoc] at shape
    exact untouched before other init (List.append_inj' shape rfl).1

theorem Untouched.undivided (untouched : Untouched lines)
    (noComment : ∀ line ∈ lines, isComment line = false) (late : EndsLate "" lines) :
    Undivided lines := by
  intro before line after shape
  obtain ⟨noReturn, notHeader⟩ := untouched before line after shape
  exact ⟨noComment line (by simp [shape]), noReturn, notHeader, late before line after shape⟩

/-- A run without slack is a list of groups, each sent as it is. The induction
is on the lines; `cur` is the part of the first group that is already read. -/
theorem groups_of_tight {state : StreamState} {cur : List String} (reading : Reading state cur)
    (untouched : Untouched cur) {lines : List String} (oneLine : ∀ line ∈ lines, OneLine line)
    (tight : weight (sendsFrom state lines) =
      (joinLines cur).utf8ByteSize + (joinLines lines).utf8ByteSize) :
    ∃ groups : List (List String), cur ++ lines = groups.flatten ∧
      (sendsFrom state lines).map sentText = groups.map joinLines ∧
      (∀ group ∈ groups, Undivided group ∧ ∀ line ∈ group, OneLine line) ∧
      ∀ group ∈ groups.dropLast, tagAfter group = "" := by
  induction lines generalizing state cur with
  | nil =>
    by_cases isNil : cur = []
    · subst isNil
      have nothing : sendsFrom state [] = [] := by
        have noStmt : state.stmt = "" := reading.stmt
        have noGroup : execStmtGroup "" = [] := by decide
        simp [sendsFrom, restoreLines, noStmt, noGroup]
      exact ⟨[], rfl, by rw [nothing]; rfl, by simp, by simp⟩
    · have isGroup : sendsFrom state [] = (execStmtGroup (joinLines cur)).map .exec := by
        simp [sendsFrom, restoreLines, reading.stmt]
      rw [isGroup] at tight
      have emptyLines : (joinLines []).utf8ByteSize = 0 := by decide
      obtain ⟨sql, isSql, isText, noComment⟩ :=
        (weight_group reading.oneLine reading.endsLate).2 isNil (by omega)
      refine ⟨[cur], by simp, ?_, ?_, by simp⟩
      · rw [isGroup, isSql]
        simp [sentText, isText]
      · intro group member
        rw [List.mem_singleton.mp member]
        exact ⟨untouched.undivided noComment reading.endsLate, reading.oneLine⟩
  | cons line rest ih =>
    obtain ⟨lineOne, restOne⟩ := List.forall_mem_cons.mp oneLine
    obtain ⟨cur', reading', light, tightLine⟩ := restoreLine_weight reading lineOne
    have later := weight_sendsFrom reading' restOne
    rw [sendsFrom_cons, weight_append, size_joinLines_cons] at tight
    obtain ⟨noReturn, notHeader, shape⟩ := tightLine (by omega)
    have grown := untouched.concat noReturn notHeader
    rw [sendsFrom_cons]
    generalize sentNow : (restoreLine state line).2 = sent at *
    cases shape with
    | collected =>
      obtain ⟨groups, lines, texts, each, closed⟩ :=
        ih reading' grown restOne (by omega)
      refine ⟨groups, ?_, texts, each, closed⟩
      rw [← lines, List.append_assoc, List.singleton_append]
    | sent sql isText noComment closes =>
      have start : Untouched [] := by
        intro before other after shape
        simp at shape
      obtain ⟨groups, lines, texts, each, closed⟩ :=
        ih reading' start restOne (by omega)
      refine ⟨(cur ++ [line]) :: groups, ?_, ?_, ?_, ?_⟩
      · rw [List.flatten_cons, ← lines, List.nil_append, List.append_assoc,
          List.singleton_append]
      · rw [List.map_append, texts, List.map_singleton, List.map_cons, List.singleton_append]
        simp [sentText, isText]
      · intro group member
        rcases List.mem_cons.mp member with rfl | inGroups
        · refine ⟨grown.undivided noComment (reading.endsLate_concat line), ?_⟩
          intro other inGroup
          rcases List.mem_append.mp inGroup with inCur | isLine
          · exact reading.oneLine other inCur
          · rwa [List.mem_singleton.mp isLine]
        · exact each group inGroups
      · intro group member
        cases groups with
        | nil => simp at member
        | cons next others =>
          rw [List.dropLast_cons_of_ne_nil (by simp)] at member
          rcases List.mem_cons.mp member with rfl | inGroups
          · exact closes
          · exact closed group inGroups

/-! ### Scripts that arrive as they are -/

/-- Texts one after another, each with a newline after it. -/
def scriptText (texts : List String) : String := String.join (texts.map (· ++ "\n"))

theorem scriptText_eq (texts : List String) :
    scriptText texts = joinLines (texts.flatMap splitNewlines) := by
  induction texts with
  | nil => rfl
  | cons text rest ih =>
    unfold scriptText at *
    rw [List.map_cons, String.join_cons, ih, List.flatMap_cons,
      joinLines_append, joinLines_splitNewlines]

theorem sentStatements_script (texts : List String) :
    sentStatements (scriptText texts) = sendsFrom {} (texts.flatMap splitNewlines) := by
  have oneLine : ∀ line ∈ texts.flatMap splitNewlines, OneLine line := by
    intro line member
    obtain ⟨text, -, inText⟩ := List.mem_flatMap.mp member
    exact oneLine_of_mem_splitNewlines inText
  unfold sentStatements
  rw [scriptText_eq, textLines_joinLines oneLine]
  rfl

variable {texts : List String}

theorem weight_of_statements {sent : List Sent} (exact : sent.map Sent.statement = texts.map .sql) :
    sent.map sentText = texts.map (· ++ "\n") ∧
      weight sent = (scriptText texts).utf8ByteSize := by
  induction sent generalizing texts with
  | nil =>
    cases texts with
    | nil => exact ⟨rfl, rfl⟩
    | cons text rest => cases exact
  | cons head tail ih =>
    cases texts with
    | nil => cases exact
    | cons text rest =>
      obtain ⟨isText, isRest⟩ := List.cons.inj exact
      obtain ⟨sameTexts, sameWeight⟩ := ih isRest
      cases head with
      | copy header payload => cases isText
      | exec sql =>
        have same : trimSpace sql = text := Emitted.sql.inj isText
        have first : weight [.exec sql] = text.utf8ByteSize + 1 := by simp [weight, same]
        refine ⟨by simp [sentText, same, sameTexts], ?_⟩
        rw [← List.singleton_append, weight_append, sameWeight, first]
        unfold scriptText
        rw [List.map_cons, String.join_cons, String.utf8ByteSize_append, size_newline]

theorem splitNewlines_of_joinLines {text : String}
    (oneLine : ∀ line ∈ lines, OneLine line) (joined : joinLines lines = text ++ "\n") :
    lines = splitNewlines text := by
  have split := splitNewlines_joinLines_append oneLine ""
  have ended := splitNewlines_append text ""
  rw [String.append_empty] at split ended
  rw [joined, ended] at split
  exact (List.append_cancel_right split).symm

theorem keptApart_of_exact
    (exact : (sentStatements (scriptText texts)).map Sent.statement = texts.map .sql) :
    KeptApart texts := by
  have oneLine : ∀ line ∈ texts.flatMap splitNewlines, OneLine line := by
    intro line member
    obtain ⟨text, -, inText⟩ := List.mem_flatMap.mp member
    exact oneLine_of_mem_splitNewlines inText
  obtain ⟨sentTexts, sentWeight⟩ := weight_of_statements exact
  rw [sentStatements_script] at sentTexts sentWeight
  rw [scriptText_eq] at sentWeight
  have emptyLines : (joinLines []).utf8ByteSize = 0 := by decide
  obtain ⟨groups, -, groupTexts, each, closed⟩ := @groups_of_tight {} [] (reading_nil rfl rfl)
    (by intro before line after shape; simp at shape) _ oneLine (by rw [sentWeight]; omega)
  rw [sentTexts] at groupTexts
  have isGroups : groups = texts.map splitNewlines := by
    clear closed sentTexts sentWeight oneLine exact
    induction groups generalizing texts with
    | nil =>
      cases texts with
      | nil => rfl
      | cons text rest => cases groupTexts
    | cons group others ih =>
      cases texts with
      | nil => cases groupTexts
      | cons text rest =>
        obtain ⟨isGroup, isRest⟩ := List.cons.inj groupTexts
        rw [List.map_cons, splitNewlines_of_joinLines (each group List.mem_cons_self).2
          isGroup.symm, ih isRest
            (List.forall_mem_cons.mp each).2]
  constructor
  · intro text member
    exact (each _ (by rw [isGroups]; exact List.mem_map_of_mem member)).1
  · intro text member
    refine closed _ ?_
    rw [isGroups, ← List.map_dropLast]
    exact List.mem_map_of_mem member

/-! ### Statements that are kept apart -/

theorem wholeLines_of_undivided {before lines : List String} (notEmpty : lines ≠ [])
    (undivided : Undivided (before ++ lines)) (closed : tagAfter (before ++ lines) = "")
    (ended : ∀ last, lines.getLast? = some last → endsStatement last = true) :
    WholeLines (tagAfter before) lines := by
  induction lines generalizing before with
  | nil => exact absurd rfl notEmpty
  | cons line rest ih =>
    obtain ⟨-, -, notHeader, late⟩ := undivided before line rest rfl
    refine ⟨notHeader, ?_⟩
    rw [← tagAfter_concat]
    by_cases isLast : rest = []
    · subst isLast
      rw [if_pos rfl]
      exact ⟨closed, ended line rfl⟩
    · rw [if_neg isLast]
      have shape : before ++ line :: rest = before ++ [line] ++ rest := by simp
      rw [shape] at undivided closed
      refine ⟨late isLast, ih isLast undivided closed ?_⟩
      intro last isEnd
      exact ended last (by rw [List.getLast?_cons_of_ne_nil isLast]; exact isEnd)

theorem whole_of_undivided {text : String} (firm : Firm text) (ended : hasSuffix text ";" = true)
    (undivided : Undivided (splitNewlines text)) (closed : tagAfter (splitNewlines text) = "") :
    Whole text where
  firm := firm
  kept := by
    intro line member
    obtain ⟨before, after, shape⟩ := List.append_of_mem member
    obtain ⟨noComment, noReturn, -, -⟩ := undivided before line after shape
    exact ⟨noComment, noReturn⟩
  lines := @wholeLines_of_undivided [] _ (splitNewlines_ne_nil text) undivided closed
    fun last isLast => hasSuffix_last ended isLast

theorem execStmtGroup_undivided {text : String} (firm : Firm text)
    (undivided : Undivided (splitNewlines text)) :
    ∃ sql, execStmtGroup (joinLines (splitNewlines text)) = [sql] ∧ trimSpace sql = text := by
  have late : EndsLate "" (splitNewlines text) := fun before line after shape =>
    (undivided before line after shape).2.2.2
  have noComment : ∀ line ∈ splitNewlines text, (!isComment line) = true := by
    intro line member
    obtain ⟨before, after, shape⟩ := List.append_of_mem member
    rw [(undivided before line after shape).1]
    rfl
  have flushed : splitLoop.flush (splitNewlines text) = [text] := by
    unfold splitLoop.flush
    simp only
    rw [joinLines_splitNewlines, trimSpace_newline, trimSpace_of_firm firm,
      if_neg firm.ne_empty]
  have clean : withoutComments text = text ++ "\n" := by
    unfold withoutComments
    rw [List.filter_eq_self.mpr noComment, joinLines_splitNewlines]
  have trimmed : trimSpace (text ++ "\n") = text := by
    rw [trimSpace_newline, trimSpace_of_firm firm]
  refine ⟨text ++ "\n", ?_, trimmed⟩
  rw [execStmtGroup_lines (fun line => oneLine_of_mem_splitNewlines) late, flushed,
    List.map_singleton, clean, List.filter_cons_of_pos (by
      rw [trimmed]
      simpa using firm.ne_empty), List.filter_nil]

/-- A statement that leaves a dollar quote open is collected to its end. -/
theorem restoreLines_open {state : StreamState} {before lines : List String}
    (notCopy : state.inCopy = false) (stmt : state.stmt = joinLines before)
    (tag : state.tag = tagAfter before) (undivided : Undivided (before ++ lines))
    (opened : tagAfter (before ++ lines) ≠ "") :
    restoreLines state lines =
      ({ state with tag := tagAfter (before ++ lines), stmt := joinLines (before ++ lines) }, []) := by
  induction lines generalizing state before with
  | nil =>
    rw [List.append_nil, ← stmt, ← tag]
    rfl
  | cons line rest ih =>
    obtain ⟨-, noReturn, notHeader, late⟩ := undivided before line rest rfl
    have shape : before ++ line :: rest = before ++ [line] ++ rest := by simp
    have sameLine : trimSuffix line "\r" = line := trimSuffix_of_not_hasSuffix noReturn
    have notEnd : ¬ (tagAfter (before ++ [line]) = "" ∧ endsStatement line = true) := by
      by_cases isLast : rest = []
      · subst isLast
        exact fun ends => opened ends.1
      · exact late isLast
    have notCopyLine : ¬ (state.tag = "" ∧ isCopyHeader line = true) := by
      rintro ⟨noTag, isHeader⟩
      rw [notHeader (tag.symm.trans noTag)] at isHeader
      cases isHeader
    have stepped : restoreLine state line =
        ({ state with tag := tagAfter (before ++ [line]),
                      stmt := joinLines (before ++ [line]) }, []) := by
      unfold restoreLine
      simp only [sameLine, notCopy, Bool.false_eq_true, if_false]
      rw [if_neg notCopyLine, tag, ← tagAfter_concat, if_neg notEnd, stmt, joinLines_concat]
    rw [shape] at undivided opened ⊢
    rw [restoreLines, stepped]
    simp only [@ih
      { state with tag := tagAfter (before ++ [line]), stmt := joinLines (before ++ [line]) }
      (before ++ [line]) notCopy rfl rfl undivided opened, List.append_nil]

theorem exact_of_keptApart
    (firm : ∀ text ∈ texts, Firm text ∧ hasSuffix text ";" = true) (kept : KeptApart texts) :
    (sentStatements (scriptText texts)).map Sent.statement = texts.map .sql := by
  rw [sentStatements_script]
  induction texts with
  | nil => decide
  | cons text rest ih =>
    obtain ⟨textFirm, ended⟩ := firm text List.mem_cons_self
    have undivided := kept.undivided text List.mem_cons_self
    obtain ⟨sql, isSql, isText⟩ := execStmtGroup_undivided textFirm undivided
    have statement : [Sent.exec sql].map Sent.statement = [.sql text] := by
      simp [Sent.statement, isText]
    by_cases closed : tagAfter (splitNewlines text) = ""
    · have whole := whole_of_undivided textFirm ended undivided closed
      have read := @restoreLines_whole {} rfl [] (splitNewlines text) rfl
        (fun line member => (whole.kept line member).2) whole.lines
      have restKept : KeptApart rest := by
        refine ⟨fun other member => kept.undivided other (List.mem_cons_of_mem _ member), ?_⟩
        intro other member
        refine kept.closed other ?_
        rw [List.dropLast_cons_of_ne_nil (by rintro rfl; simp at member)]
        exact List.mem_cons_of_mem _ member
      have later := ih
        (List.forall_mem_cons.mp firm).2 restKept
      have cut : sendsFrom {} (splitNewlines text ++ rest.flatMap splitNewlines) =
          [Sent.exec sql] ++ sendsFrom {} (rest.flatMap splitNewlines) := by
        unfold sendsFrom
        rw [restoreLines_append, read, List.nil_append, isSql]
        simp
      rw [List.flatMap_cons, cut, List.map_append, statement, later]
      rfl
    · cases rest with
      | nil =>
        have read := @restoreLines_open {} [] (splitNewlines text) rfl rfl rfl undivided closed
        have sent : sendsFrom {} (splitNewlines text) = [.exec sql] := by
          unfold sendsFrom
          rw [read]
          simp [isSql]
        rw [List.flatMap_cons, List.flatMap_nil, List.append_nil, sent, statement]
        rfl
      | cons next others =>
        exact absurd (kept.closed text (by
          rw [List.dropLast_cons_of_ne_nil (by simp)]
          exact List.mem_cons_self)) closed

theorem splitsExactly_iff (stmts : List Statement) :
    SplitsExactly stmts ↔ KeptApart (stmts.map Statement.text) := by
  have isScript : script stmts = scriptText (stmts.map Statement.text) := by
    unfold script scriptText
    rw [List.map_map]
    rfl
  have isList : (stmts.map fun s => Emitted.sql s.text) =
      (stmts.map Statement.text).map .sql := by
    rw [List.map_map]
    rfl
  unfold SplitsExactly
  rw [isScript, isList]
  constructor
  · exact keptApart_of_exact
  · intro kept
    refine exact_of_keptApart ?_ kept
    intro text member
    obtain ⟨s, -, rfl⟩ := List.mem_map.mp member
    exact ⟨statement_firm s, hasSuffix_append _ _⟩

/-- A string with a line that looks like a comment. -/
def noteStatement : Statement where
  lexemes := [.plain "select ", .string "a\n--b\nc"]
  wellFormed := by
    intro lexeme member
    rcases List.mem_cons.mp member with rfl | isString
    · refine ⟨?_, by decide +kernel, by decide +kernel⟩
      have outside : ("select ".toList.all fun c =>
          c ≠ '\'' && c ≠ '"' && c ≠ '$' && c ≠ ';') = true := by decide
      intro c inText
      have fine := List.all_eq_true.mp outside c inText
      simpa [and_assoc] using fine
    · rw [List.mem_singleton.mp isString]
      trivial
  begins := by decide +kernel

/-- A body in a dollar quote without a word. -/
def bodyStatement : Statement where
  lexemes := [.plain "do ", .dollar "" "\nx;\n"]
  wellFormed := by
    intro lexeme member
    rcases List.mem_cons.mp member with rfl | isDollar
    · refine ⟨?_, by decide +kernel, by decide +kernel⟩
      have outside : ("do ".toList.all fun c =>
          c ≠ '\'' && c ≠ '"' && c ≠ '$' && c ≠ ';') = true := by decide
      intro c inText
      have fine := List.all_eq_true.mp outside c inText
      simpa [and_assoc] using fine
    · rw [List.mem_singleton.mp isDollar]
      exact ⟨by simp, by decide +kernel⟩
  begins := by decide +kernel

/-- The line is left out of the string, and the body is cut in two. -/
theorem literals_cut : ¬ SplitsExactly [noteStatement] ∧ ¬ SplitsExactly [bodyStatement] := by
  have note : sentStatements (script [noteStatement]) = [.exec "select 'a\nc';\n"] := by
    decide +kernel
  have body : sentStatements (script [bodyStatement]) = [.exec "do $$\nx;\n", .exec "$$;\n"] := by
    decide +kernel
  unfold SplitsExactly
  rw [note, body]
  exact ⟨by decide +kernel, by decide +kernel⟩

end DbBackup.Engine.Postgres.Split
