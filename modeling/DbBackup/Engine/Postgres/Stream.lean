import DbBackup.Lib.LineScan

/-!
Owns the restore of a PostgreSQL dump: `dollarTagOpen`, `updateDollarTag`,
`splitStatements`, `execStmtGroup`, `pgExecCopy` and `pgRestoreStream` of
`internal/database/engine/postgres/ops.go`.

The restorer knows lines only. A statement ends where a line ends in a
semicolon outside a dollar quote, lines that begin with two dashes are left
out, and a line that looks like a COPY header starts a block of data.

Contract: which texts pass the restorer as they are. A dump is a list of
pieces: comment lines, statements and COPY blocks. If no comment breaks its
line and every statement is one the line rules keep whole, then what reaches
the server is the statements and the COPY headers, in order
(`sentStatements_render`).

What the restorer sends does not depend on the server's answers; an error only
ends it early, so `pgRestoreStream` is the list up to the first refusal.
-/

set_option linter.all false

namespace DbBackup.Engine.Postgres.Stream

open Lib.GoString Lib.LineScan

/-! ### Dollar quotes -/

def isTagChar (c : Char) : Bool :=
  c = '_' || ('a' ≤ c && c ≤ 'z') || ('A' ≤ c && c ≤ 'Z') || ('0' ≤ c && c ≤ '9')

/-- The first `$word$` in the text. A bare `$$` is none. -/
def openTag : List Char → List Char
  | [] => []
  | c :: rest =>
    if c = '$' then
      let word := rest.takeWhile isTagChar
      if word ≠ [] ∧ (rest.drop word.length).head? = some '$' then '$' :: word ++ ['$']
      else openTag rest
    else openTag rest

def dollarTagOpen (s : String) : String := String.ofList (openTag s.toList)

/-- How far a scan is inside a possible tag. -/
inductive TagScan where
  | outside
  | dollar
  | word
deriving DecidableEq

/-- One character; `none` where a tag is complete. -/
def TagScan.next : TagScan → Char → Option TagScan
  | state, c =>
    if c = '$' then if state = .word then none else some .dollar
    else if isTagChar c then some (if state = .outside then .outside else .word)
    else some .outside

def scanTag : TagScan → List Char → Option TagScan
  | state, [] => some state
  | state, c :: rest => (state.next c).bind fun next => scanTag next rest

theorem scanTag_append (state : TagScan) (first second : List Char) :
    scanTag state (first ++ second) = (scanTag state first).bind fun next => scanTag next second := by
  induction first generalizing state with
  | nil => rfl
  | cons c rest ih =>
    rw [List.cons_append, scanTag, scanTag, Option.bind_assoc]
    simp only [ih]

/-- The text goes on like the rest of a tag. -/
def closesTag (text : List Char) : Prop :=
  (text.drop (text.takeWhile isTagChar).length).head? = some '$'

private theorem scanTag_isSome (text : List Char) :
    ((scanTag .outside text).isSome = true ↔ openTag text = []) ∧
      ((scanTag .dollar text).isSome = true ↔
        ¬ (text.takeWhile isTagChar ≠ [] ∧ closesTag text) ∧ openTag text = []) ∧
      ((scanTag .word text).isSome = true ↔ ¬ closesTag text ∧ openTag text = []) := by
  induction text with
  | nil => simp [scanTag, openTag, closesTag]
  | cons c rest ih =>
    obtain ⟨outside, dollar, word⟩ := ih
    have dollarChar : isTagChar '$' = false := by decide
    by_cases isDollar : c = '$'
    · subst isDollar
      have opened : openTag ('$' :: rest) = [] ↔
          ¬ (rest.takeWhile isTagChar ≠ [] ∧ closesTag rest) ∧ openTag rest = [] := by
        unfold closesTag
        rw [openTag, if_pos rfl]
        by_cases complete : rest.takeWhile isTagChar ≠ [] ∧
            (rest.drop (rest.takeWhile isTagChar).length).head? = some '$'
        · rw [if_pos complete]
          constructor
          · intro opens
            cases opens
          · intro ⟨incomplete, _⟩
            exact absurd complete incomplete
        · rw [if_neg complete]
          exact ⟨fun noTag => ⟨complete, noTag⟩, fun ⟨_, noTag⟩ => noTag⟩
      have noWord : ('$' :: rest).takeWhile isTagChar = [] := by simp [dollarChar]
      have closes : closesTag ('$' :: rest) := by simp [closesTag, dollarChar]
      refine ⟨?_, ?_, ?_⟩
      · simpa [scanTag, TagScan.next, opened] using dollar
      · simpa [scanTag, TagScan.next, opened, noWord] using dollar
      · simp [scanTag, TagScan.next, closes]
    · have skips : openTag (c :: rest) = openTag rest := by simp [openTag, isDollar]
      by_cases isWord : isTagChar c = true
      · have closes : closesTag (c :: rest) ↔ closesTag rest := by
          simp [closesTag, isWord]
        have someWord : (c :: rest).takeWhile isTagChar ≠ [] := by simp [isWord]
        refine ⟨?_, ?_, ?_⟩
        · simpa [scanTag, TagScan.next, isDollar, isWord, skips] using outside
        · simpa [scanTag, TagScan.next, isDollar, isWord, skips, someWord, closes] using word
        · simpa [scanTag, TagScan.next, isDollar, isWord, skips, closes] using word
      · have noWord : (c :: rest).takeWhile isTagChar = [] := by simp [isWord]
        have open_ : ¬ closesTag (c :: rest) := by simp [closesTag, isWord, isDollar]
        refine ⟨?_, ?_, ?_⟩
        · simpa [scanTag, TagScan.next, isDollar, isWord, skips] using outside
        · simpa [scanTag, TagScan.next, isDollar, isWord, skips, noWord] using outside
        · simpa [scanTag, TagScan.next, isDollar, isWord, skips, open_] using outside

/-- A text opens no dollar quote exactly if the scan gets through it. -/
theorem openTag_eq_nil_iff (text : List Char) :
    openTag text = [] ↔ ∃ state, scanTag .outside text = some state := by
  rw [← (scanTag_isSome text).1, Option.isSome_iff_exists]

theorem openTag_of_append {first second : List Char} (noTag : openTag (first ++ second) = []) :
    openTag first = [] := by
  obtain ⟨state, scanned⟩ := (openTag_eq_nil_iff _).mp noTag
  rw [scanTag_append] at scanned
  obtain ⟨middle, firstScanned, -⟩ := Option.bind_eq_some_iff.mp scanned
  exact (openTag_eq_nil_iff _).mpr ⟨middle, firstScanned⟩

theorem openTag_tail {c : Char} {rest : List Char} (noTag : openTag (c :: rest) = []) :
    openTag rest = [] := by
  rw [openTag] at noTag
  split at noTag
  · simp only at noTag
    split at noTag
    · cases noTag
    · exact noTag
  · exact noTag

/-- What follows the first occurrence of `needle`. -/
def afterFirst (needle text : List Char) : Option (List Char) :=
  (indexOf needle text).map fun idx => text.drop (idx + needle.length)

/-- The loop of `updateDollarTag`. Every round shortens `rest`. -/
def followTag : Nat → List Char → List Char → List Char
  | 0, _, tag => tag
  | fuel + 1, rest, [] =>
    let opened := openTag rest
    if opened = [] then []
    else
      match (afterFirst opened rest).bind (afterFirst opened) with
      | some rest => followTag fuel rest []
      | none => opened
  | fuel + 1, rest, tag =>
    match afterFirst tag rest with
    | some rest => followTag fuel rest []
    | none => tag

def updateDollarTag (line tag : String) : String :=
  String.ofList (followTag (line.toList.length + 1) line.toList tag.toList)

/-! ### Statements -/

def endsStatement (line : String) : Bool := hasSuffix (trimSpace line) ";"

def isComment (line : String) : Bool := hasPrefix (trimSpace line) "--"

/-- The loop of `splitStatements`: the lines of the current statement, the open
tag, and the lines still to come. -/
def splitLoop (cur : List String) (tag : String) : List String → List String
  | [] => flush cur
  | line :: rest =>
    let tag := updateDollarTag line tag
    let cur := cur ++ [line]
    if tag = "" ∧ endsStatement line = true then flush cur ++ splitLoop [] tag rest
    else splitLoop cur tag rest
where
  flush (cur : List String) : List String :=
    let s := trimSpace (joinLines cur)
    if s = "" then [] else [s]

def splitStatements (src : String) : List String := splitLoop [] "" (splitNewlines src)

def withoutComments (s : String) : String :=
  joinLines ((splitNewlines s).filter fun l => !isComment l)

/-- The texts `execStmtGroup` passes to `Exec`. -/
def execStmtGroup (stmt : String) : List String :=
  ((splitStatements stmt).map withoutComments).filter fun clean => trimSpace clean ≠ ""

/-! ### The stream -/

inductive Sent where
  | exec (sql : String)
  | copy (header payload : String)
deriving DecidableEq

structure StreamState where
  stmt : String := ""
  inCopy : Bool := false
  copyHeader : String := ""
  copyBuf : String := ""
  tag : String := ""
deriving DecidableEq

def pgExecCopy (header data : String) : List Sent :=
  if header = "" then []
  else if data ≠ "" ∧ hasSuffix data "\n" = false then [.copy header (data ++ "\n")]
  else [.copy header data]

def isCopyHeader (line : String) : Bool :=
  hasPrefix line "COPY " && contains line " FROM stdin;"

/-- One line of the dump, and what it sends. -/
def restoreLine (state : StreamState) (raw : String) : StreamState × List Sent :=
  let line := trimSuffix raw "\r"
  if state.inCopy then
    if line = "\\." then
      ({ state with inCopy := false, copyBuf := "", copyHeader := "", stmt := "" },
        pgExecCopy state.copyHeader state.copyBuf)
    else if state.copyBuf = "" then ({ state with copyBuf := line }, [])
    else ({ state with copyBuf := state.copyBuf ++ "\n" ++ line }, [])
  else if state.tag = "" ∧ isCopyHeader line = true then
    ({ state with stmt := "", copyHeader := trimSuffix line ";", inCopy := true },
      (execStmtGroup state.stmt).map .exec)
  else
    let tag := updateDollarTag line state.tag
    let stmt := state.stmt ++ line ++ "\n"
    if tag = "" ∧ endsStatement line = true then
      ({ state with tag, stmt := "" }, (execStmtGroup stmt).map .exec)
    else ({ state with tag, stmt }, [])

def restoreLines (state : StreamState) : List String → StreamState × List Sent
  | [] => (state, [])
  | line :: rest =>
    let (next, sent) := restoreLine state line
    let (last, later) := restoreLines next rest
    (last, sent ++ later)

/-- Everything a restore of the dump sends to a server that refuses nothing. -/
def sentStatements (dump : String) : List Sent :=
  let (state, sent) := restoreLines {} (textLines dump)
  sent ++ (execStmtGroup state.stmt).map .exec

/-- The list up to and with the first statement the server refuses; `accepts`
is asked with everything sent so far. -/
def untilRefused (accepts : List Sent → Bool) (done : List Sent) : List Sent → List Sent
  | [] => []
  | sent :: rest =>
    if accepts (done ++ [sent]) then sent :: untilRefused accepts (done ++ [sent]) rest
    else [sent]

def pgRestoreStream (accepts : List Sent → Bool) (dump : String) : List Sent :=
  untilRefused accepts [] (sentStatements dump)

theorem untilRefused_isPrefixOf (accepts : List Sent → Bool) (done sents : List Sent) :
    untilRefused accepts done sents <+: sents := by
  induction sents generalizing done with
  | nil => exact List.nil_prefix
  | cons sent rest ih =>
    unfold untilRefused
    split
    · exact List.cons_prefix_cons.mpr ⟨rfl, ih _⟩
    · exact List.cons_prefix_cons.mpr ⟨rfl, List.nil_prefix⟩

theorem untilRefused_accepting (done sents : List Sent) :
    untilRefused (fun _ => true) done sents = sents := by
  induction sents generalizing done with
  | nil => rfl
  | cons sent rest ih =>
    unfold untilRefused
    rw [if_pos rfl, ih]

/-! ### Lines that send nothing -/

def Skipped (line : String) : Prop := trimSpace line = "" ∨ isComment line = true

/-- Every line of the text is blank or a comment. -/
def AllSkipped (text : String) : Prop := ∀ line ∈ splitNewlines text, Skipped line

theorem skipped_blankBlind : BlankBlind Skipped := by
  intro line other same skipped
  unfold Skipped isComment at *
  rwa [← same]

theorem allSkipped_tail {c : Char} {rest : List Char} (blank : isSpace c = true)
    (skipped : AllSkipped (String.ofList (c :: rest))) : AllSkipped (String.ofList rest) :=
  everyLine_tail skipped_blankBlind blank skipped

theorem AllSkipped.trimSpace {text : String} (skipped : AllSkipped text) :
    AllSkipped (trimSpace text) :=
  EveryLine.trimSpace skipped_blankBlind skipped

theorem allSkipped_dropWhile {text : String} (skipped : AllSkipped text) :
    AllSkipped (String.ofList (text.toList.dropWhile isSpace)) := by
  have fromChars : ∀ chars, AllSkipped (String.ofList chars) →
      AllSkipped (String.ofList (chars.dropWhile isSpace)) := by
    intro chars
    induction chars with
    | nil => exact id
    | cons c rest ih =>
      intro whole
      by_cases blank : isSpace c = true
      · rw [List.dropWhile_cons_of_pos blank]
        exact ih (allSkipped_tail blank whole)
      · rwa [List.dropWhile_cons_of_neg blank]
  exact fromChars _ (by simpa using skipped)

theorem allSkipped_joinLines {lines : List String} (oneLine : ∀ line ∈ lines, OneLine line)
    (skipped : ∀ line ∈ lines, Skipped line) : AllSkipped (joinLines lines) := by
  have shape := splitNewlines_joinLines_append oneLine ""
  rw [String.append_empty] at shape
  intro line listed
  rw [shape] at listed
  rcases List.mem_append.mp listed with early | last
  · exact skipped line early
  · have isEmpty : line = "" := by simpa [splitNewlines] using last
    rw [isEmpty]
    exact .inl (by decide)

theorem dropWhile_joinLines_ended (lines : List String) :
    String.ofList ((joinLines lines).toList.dropWhile isSpace) = "" ∨
      ∃ start, String.ofList ((joinLines lines).toList.dropWhile isSpace) = start ++ "\n" := by
  obtain ⟨dropped, whole⟩ := List.dropWhile_suffix (l := (joinLines lines).toList) isSpace
  cases kept : ((joinLines lines).toList.dropWhile isSpace).getLast? with
  | none =>
    rw [List.getLast?_eq_none_iff] at kept
    exact .inl (by rw [kept])
  | some last =>
    right
    obtain ⟨start, shape⟩ := List.getLast?_eq_some_iff.mp kept
    have isNewline : last = '\n' := by
      rcases List.eq_nil_or_concat lines with rfl | ⟨before, line, rfl⟩
      · simp [joinLines] at kept
      · rw [shape, List.concat_eq_append, joinLines_concat] at whole
        have sameLast := congrArg List.getLast? whole
        simpa using sameLast
    refine ⟨String.ofList start, ?_⟩
    rw [shape, isNewline]
    apply String.toList_injective
    simp

theorem blank_joinLines {lines : List String} (blank : ∀ line ∈ lines, trimSpace line = "") :
    ∀ c ∈ (joinLines lines).toList, isSpace c = true := by
  intro c member
  unfold joinLines at member
  rw [String.toList_ofList, List.mem_flatMap] at member
  obtain ⟨line, inLines, inLine⟩ := member
  rcases List.mem_append.mp inLine with inText | isNewline
  · exact trimSpace_eq_empty_iff.mp (blank line inLines) c inText
  · rw [List.mem_singleton.mp isNewline]
    decide

/-- Without its comment lines a text of skipped lines is blank. -/
theorem blank_withoutComments {lines : List String} (skipped : ∀ line ∈ lines, Skipped line) :
    ∀ line ∈ lines.filter fun l => !isComment l, trimSpace line = "" := by
  intro line member
  obtain ⟨inLines, notComment⟩ := List.mem_filter.mp member
  rcases skipped line inLines with blank | comment
  · exact blank
  · rw [comment] at notComment
    exact absurd notComment (by decide)

theorem allSkipped_splitLoop {cur rest : List String} (tag : String)
    (oneLine : ∀ line ∈ cur ++ rest, OneLine line) (skipped : ∀ line ∈ cur ++ rest, Skipped line) :
    ∀ s ∈ splitLoop cur tag rest, AllSkipped s := by
  have flushed : ∀ lines : List String, (∀ line ∈ lines, OneLine line) →
      (∀ line ∈ lines, Skipped line) → ∀ s ∈ splitLoop.flush lines, AllSkipped s := by
    intro lines lineOnce lineSkipped s member
    have isTrimmed : s = trimSpace (joinLines lines) := by
      unfold splitLoop.flush at member
      simp only at member
      split at member
      · cases member
      · exact List.mem_singleton.mp member
    rw [isTrimmed]
    exact (allSkipped_joinLines lineOnce lineSkipped).trimSpace
  induction rest generalizing cur tag with
  | nil =>
    rw [List.append_nil] at oneLine skipped
    exact flushed cur oneLine skipped
  | cons line rest ih =>
    have shape : cur ++ line :: rest = (cur ++ [line]) ++ rest := by simp
    rw [shape] at oneLine skipped
    unfold splitLoop
    simp only
    split
    · intro s member
      rcases List.mem_append.mp member with now | later
      · exact flushed (cur ++ [line]) (fun l inCur => oneLine l (List.mem_append_left _ inCur))
          (fun l inCur => skipped l (List.mem_append_left _ inCur)) s now
      · exact @ih [] _ (fun l inRest => oneLine l (List.mem_append_right _ inRest))
          (fun l inRest => skipped l (List.mem_append_right _ inRest)) s later
    · exact ih _ oneLine skipped

theorem execStmtGroup_skipped {lines : List String} (oneLine : ∀ line ∈ lines, OneLine line)
    (skipped : ∀ line ∈ lines, Skipped line) : execStmtGroup (joinLines lines) = [] := by
  have shape := splitNewlines_joinLines_append oneLine ""
  rw [String.append_empty] at shape
  have emptyLine : splitNewlines "" = [""] := by simp [splitNewlines]
  unfold execStmtGroup splitStatements
  rw [shape, emptyLine, List.filter_eq_nil_iff]
  intro clean member
  obtain ⟨s, split, rfl⟩ := List.mem_map.mp member
  have allSkipped : AllSkipped s := by
    refine @allSkipped_splitLoop [] (lines ++ [""]) "" ?_ ?_ s split
    · rw [List.nil_append]
      intro line listed
      rcases List.mem_append.mp listed with early | last
      · exact oneLine line early
      · rw [List.mem_singleton.mp last]
        decide
    · rw [List.nil_append]
      intro line listed
      rcases List.mem_append.mp listed with early | last
      · exact skipped line early
      · rw [List.mem_singleton.mp last]
        exact .inl (by decide)
  have blank : trimSpace (withoutComments s) = "" :=
    trimSpace_eq_empty_iff.mpr (blank_joinLines (blank_withoutComments allSkipped))
  simp [blank]

/-! ### Statements that pass whole -/

/-- Read from `tag` on, the lines end one statement, and no line before the
last does. -/
def WholeLines (tag : String) : List String → Prop
  | [] => False
  | line :: rest =>
    (tag = "" → isCopyHeader line = false) ∧
      if rest = [] then updateDollarTag line tag = "" ∧ endsStatement line = true
      else ¬ (updateDollarTag line tag = "" ∧ endsStatement line = true) ∧
        WholeLines (updateDollarTag line tag) rest

def decidableWholeLines : ∀ tag lines, Decidable (WholeLines tag lines)
  | _, [] => .isFalse id
  | tag, line :: rest =>
    have := decidableWholeLines (updateDollarTag line tag) rest
    inferInstanceAs (Decidable ((tag = "" → isCopyHeader line = false) ∧
      if rest = [] then updateDollarTag line tag = "" ∧ endsStatement line = true
      else ¬ (updateDollarTag line tag = "" ∧ endsStatement line = true) ∧
        WholeLines (updateDollarTag line tag) rest))

instance (tag : String) (lines : List String) : Decidable (WholeLines tag lines) :=
  decidableWholeLines tag lines

/-- A statement the line rules of the restorer keep as it is. -/
structure Whole (text : String) : Prop where
  firm : Firm text
  kept : ∀ line ∈ splitNewlines text, isComment line = false ∧ hasSuffix line "\r" = false
  lines : WholeLines "" (splitNewlines text)

instance (text : String) : Decidable (Whole text) :=
  decidable_of_iff (Firm text ∧
      (∀ line ∈ splitNewlines text, isComment line = false ∧ hasSuffix line "\r" = false) ∧
      WholeLines "" (splitNewlines text))
    ⟨fun ⟨firm, kept, lines⟩ => ⟨firm, kept, lines⟩,
      fun whole => ⟨whole.firm, whole.kept, whole.lines⟩⟩

/-- A line the restorer collects without ending a statement or opening a quote. -/
structure Resting (line : String) : Prop where
  oneLine : OneLine line
  skipped : Skipped line
  noTag : openTag line.toList = []
  open_ : endsStatement line = false

theorem updateDollarTag_of_noTag {line : String} (noTag : openTag line.toList = []) :
    updateDollarTag line "" = "" := by
  unfold updateDollarTag
  have stops : followTag (line.toList.length + 1) line.toList [] = [] := by
    simp [followTag, noTag]
  rw [String.toList_empty, stops]

theorem splitLoop_resting {lines : List String} (resting : ∀ line ∈ lines, Resting line)
    (cur rest : List String) :
    splitLoop cur "" (lines ++ rest) = splitLoop (cur ++ lines) "" rest := by
  induction lines generalizing cur with
  | nil => simp
  | cons line lines ih =>
    have head := resting line List.mem_cons_self
    rw [List.cons_append, splitLoop]
    simp only [updateDollarTag_of_noTag head.noTag, head.open_]
    rw [if_neg (by simp), ih (List.forall_mem_cons.mp resting).2]
    simp

theorem splitLoop_whole {tag : String} {lines : List String} (whole : WholeLines tag lines)
    (cur rest : List String) :
    splitLoop cur tag (lines ++ rest) =
      splitLoop.flush (cur ++ lines) ++ splitLoop [] "" rest := by
  induction lines generalizing cur tag with
  | nil => exact absurd whole id
  | cons line lines ih =>
    obtain ⟨-, ends⟩ := whole
    rw [List.cons_append, splitLoop]
    by_cases isLast : lines = []
    · rw [if_pos isLast] at ends
      rw [if_pos ends, ends.1, isLast, List.nil_append]
    · rw [if_neg isLast] at ends
      rw [if_neg ends.1, ih ends.2, List.append_assoc, List.singleton_append]

/-- Trimming takes the blank start off what precedes a firm text, and the
newline after it. -/
theorem trimSpace_before_firm (start : String) {text : String} (firm : Firm text) :
    trimSpace (start ++ text ++ "\n") =
      String.ofList (start.toList.dropWhile isSpace) ++ text := by
  obtain ⟨first, begins, firstText⟩ := Option.map_eq_some_iff.mp firm.1
  obtain ⟨tail, headShape⟩ := List.head?_eq_some_iff.mp begins
  have leftTrimmed : (start ++ text ++ "\n").toList.dropWhile isSpace =
      start.toList.dropWhile isSpace ++ (text ++ "\n").toList := by
    rw [String.append_assoc, String.toList_append, List.dropWhile_append]
    by_cases blank : (start.toList.dropWhile isSpace).isEmpty = true
    · rw [if_pos blank, List.isEmpty_iff.mp blank, List.nil_append, String.toList_append,
        headShape, List.cons_append, List.dropWhile_cons_of_neg (by simp [firstText])]
    · rw [if_neg blank]
  obtain ⟨last, ends, lastText⟩ := Option.map_eq_some_iff.mp firm.2
  obtain ⟨before, lastShape⟩ := List.getLast?_eq_some_iff.mp ends
  apply String.toList_injective
  unfold trimSpace
  rw [leftTrimmed, String.toList_ofList, String.toList_append, String.toList_append, lastShape]
  have newlineBlank : isSpace '\n' = true := by decide
  simp [newlineBlank, lastText]

/-- What the kept lines of a group are: blank ones, and those of the statement. -/
theorem trimSpace_withoutComments {start text : String} (skipped : AllSkipped start)
    (ended : start = "" ∨ ∃ lines, start = lines ++ "\n") (whole : Whole text) :
    trimSpace (withoutComments (start ++ text)) = text := by
  have keptText : (splitNewlines text).filter (fun l => !isComment l) = splitNewlines text := by
    rw [List.filter_eq_self]
    intro line member
    rw [(whole.kept line member).1]
    rfl
  have newline : ∀ c ∈ "\n".toList, isSpace c = true := by
    intro c member
    rw [List.mem_singleton.mp (show c ∈ ['\n'] from member)]
    decide
  unfold withoutComments
  rcases ended with rfl | ⟨lines, rfl⟩
  · rw [String.empty_append, keptText, joinLines_splitNewlines]
    exact trimSpace_append_blank whole.firm newline
  · have linesSkipped : ∀ line ∈ splitNewlines lines, Skipped line := by
      intro line member
      have inStart := splitNewlines_append lines ""
      rw [String.append_empty] at inStart
      exact skipped line (by rw [inStart]; exact List.mem_append_left _ member)
    rw [splitNewlines_append, List.filter_append, keptText]
    rw [joinLines_append, trimSpace_blank_append (blank_joinLines (blank_withoutComments linesSkipped)),
      joinLines_splitNewlines]
    exact trimSpace_append_blank whole.firm newline

/-- Comments and a whole statement: one statement is sent, and it is that one. -/
theorem execStmtGroup_whole {lines : List String} {text : String}
    (resting : ∀ line ∈ lines, Resting line) (whole : Whole text) :
    ∃ sql, execStmtGroup (joinLines (lines ++ splitNewlines text)) = [sql] ∧
      trimSpace sql = text := by
  have oneLine : ∀ line ∈ lines ++ splitNewlines text, OneLine line := by
    intro line member
    rcases List.mem_append.mp member with early | late
    · exact (resting line early).oneLine
    · exact oneLine_of_mem_splitNewlines late
  have joined : joinLines (lines ++ splitNewlines text) = joinLines lines ++ text ++ "\n" := by
    rw [joinLines_append, joinLines_splitNewlines, String.append_assoc]
  have shape := splitNewlines_joinLines_append oneLine ""
  rw [String.append_empty] at shape
  have emptyLine : splitNewlines "" = [""] := by simp [splitNewlines]
  -- What is left after trimming begins with the first comment, if there is one.
  let start := String.ofList ((joinLines lines).toList.dropWhile isSpace)
  have trimmed : trimSpace (joinLines (lines ++ splitNewlines text)) = start ++ text := by
    rw [joined]
    exact trimSpace_before_firm _ whole.firm
  have startSkipped : AllSkipped start := allSkipped_dropWhile
    (allSkipped_joinLines (fun line member => (resting line member).oneLine)
      fun line member => (resting line member).skipped)
  have startEnded : start = "" ∨ ∃ lines, start = lines ++ "\n" := dropWhile_joinLines_ended lines
  have notEmpty : start ++ text ≠ "" := by
    intro empty
    have noChars := congrArg String.toList empty
    rw [String.toList_append, String.toList_empty] at noChars
    exact whole.firm.ne_empty (String.toList_injective (List.append_eq_nil_iff.mp noChars).2)
  have split : splitStatements (joinLines (lines ++ splitNewlines text)) = [start ++ text] := by
    unfold splitStatements
    rw [shape, emptyLine, List.append_assoc, splitLoop_resting resting, List.nil_append,
      splitLoop_whole whole.lines]
    have rest : splitLoop [] "" [""] = [] := by decide
    rw [rest, List.append_nil]
    unfold splitLoop.flush
    simp only
    rw [trimmed, if_neg notEmpty]
  have clean := trimSpace_withoutComments startSkipped startEnded whole
  refine ⟨withoutComments (start ++ text), ?_, clean⟩
  unfold execStmtGroup
  rw [split, List.map_singleton, List.filter_eq_self]
  intro sql member
  rw [List.mem_singleton.mp member, clean]
  simpa using whole.firm.ne_empty

/-! ### Pieces of a dump -/

inductive Piece where
  /-- A comment line, written after a newline. -/
  | comment (label : String)
  | sql (text : String)
  | copy (header : String) (rows : List String)
  | gap
deriving DecidableEq

def Piece.lines : Piece → List String
  | .comment label => ["", "-- " ++ label]
  | .sql text => splitNewlines text
  | .copy header rows => [header ++ ";"] ++ rows ++ ["\\."]
  | .gap => [""]

/-- The text the dumper writes. A comment breaks where its label does. -/
def Piece.text : Piece → String
  | .comment label => "\n-- " ++ label ++ "\n"
  | .sql text => text ++ "\n"
  | .copy header rows => header ++ ";\n" ++ joinLines rows ++ "\\.\n"
  | .gap => "\n"

def render (pieces : List Piece) : String := String.join (pieces.map Piece.text)

inductive Emitted where
  | sql (text : String)
  | copy (header : String)
deriving DecidableEq

/-- The statements of a dump. -/
def Piece.emitted : Piece → List Emitted
  | .comment _ | .gap => []
  | .sql text => [.sql text]
  | .copy header _ => [.copy header]

/-- A sent statement, without the blank space around it. -/
def Sent.statement : Sent → Emitted
  | .exec sql => .sql (trimSpace sql)
  | .copy header _ => .copy header

/-- A text that stays in its line and opens no dollar quote. -/
structure Plain (text : String) : Prop where
  oneLine : OneLine text
  noTag : openTag text.toList = []

instance (text : String) : Decidable (Plain text) :=
  decidable_of_iff (OneLine text ∧ openTag text.toList = [])
    ⟨fun ⟨oneLine, noTag⟩ => ⟨oneLine, noTag⟩, fun plain => ⟨plain.oneLine, plain.noTag⟩⟩

structure IsCopyBlock (header : String) (rows : List String) : Prop where
  oneLine : OneLine header
  begins : hasPrefix header "COPY " = true
  ends : hasSuffix header " FROM stdin" = true
  rowLine : ∀ row ∈ rows, OneLine row
  rowData : ∀ row ∈ rows, trimSuffix row "\r" ≠ "\\."

/-- A piece the restorer reads as what it is. -/
def Piece.Clean : Piece → Prop
  | .comment label => Plain label
  | .sql text => Whole text
  | .copy header rows => IsCopyBlock header rows
  | .gap => True

theorem joinLines_lines (piece : Piece) : joinLines piece.lines = piece.text := by
  cases piece with
  | comment label =>
    apply String.toList_injective
    simp [joinLines, Piece.lines, Piece.text]
  | sql text => exact joinLines_splitNewlines text
  | copy header rows =>
    apply String.toList_injective
    simp [joinLines, Piece.lines, Piece.text]
  | gap => decide

theorem render_eq_joinLines (pieces : List Piece) :
    render pieces = joinLines (pieces.flatMap Piece.lines) := by
  have fromEmpty : ∀ texts : List String, String.join texts =
      String.ofList (texts.flatMap String.toList) := by
    intro texts
    apply String.toList_injective
    rw [String.toList_join, String.toList_ofList, List.flatMap]
  induction pieces with
  | nil => rfl
  | cons piece rest ih =>
    rw [List.flatMap_cons, joinLines_append, ← ih, joinLines_lines]
    unfold render
    rw [fromEmpty, fromEmpty]
    apply String.toList_injective
    simp

theorem oneLine_lines {piece : Piece} (clean : piece.Clean) :
    ∀ line ∈ piece.lines, OneLine line := by
  intro line member
  cases piece with
  | comment label =>
    rcases List.mem_cons.mp member with rfl | isComment
    · decide
    · rw [List.mem_singleton.mp isComment]
      exact OneLine.append (by decide) clean.oneLine
  | sql text => exact oneLine_of_mem_splitNewlines member
  | copy header rows =>
    rcases List.mem_append.mp member with early | isEnd
    · rcases List.mem_append.mp early with isHeader | isRow
      · rw [List.mem_singleton.mp isHeader]
        exact clean.oneLine.append (by decide)
      · exact clean.rowLine line isRow
    · rw [List.mem_singleton.mp isEnd]
      decide
  | gap =>
    rw [List.mem_singleton.mp member]
    decide

variable {pieces : List Piece}

theorem textLines_render (clean : ∀ piece ∈ pieces, piece.Clean) :
    textLines (render pieces) = pieces.flatMap Piece.lines := by
  rw [render_eq_joinLines, textLines_joinLines]
  intro line member
  obtain ⟨piece, inPieces, inLines⟩ := List.mem_flatMap.mp member
  exact oneLine_lines (clean piece inPieces) line inLines

/-! ### Reading pieces -/

theorem restoreLines_append (state : StreamState) (first second : List String) :
    restoreLines state (first ++ second) =
      ((restoreLines (restoreLines state first).1 second).1,
        (restoreLines state first).2 ++ (restoreLines (restoreLines state first).1 second).2) := by
  induction first generalizing state with
  | nil => rfl
  | cons line rest ih =>
    rw [List.cons_append, restoreLines, restoreLines]
    simp only [ih, List.append_assoc]

/-- Between two pieces: outside data and quotes, with nothing collected but
lines that send nothing. -/
structure AtRest (state : StreamState) : Prop where
  notCopy : state.inCopy = false
  noTag : state.tag = ""
  collected : ∃ lines, state.stmt = joinLines lines ∧ ∀ line ∈ lines, Resting line

variable {state : StreamState}

theorem AtRest.execStmtGroup (atRest : AtRest state) : execStmtGroup state.stmt = [] := by
  obtain ⟨lines, isJoined, resting⟩ := atRest.collected
  rw [isJoined]
  exact execStmtGroup_skipped (fun line member => (resting line member).oneLine)
    fun line member => (resting line member).skipped

/-- A skipped line leaves the restorer at rest, also when it ends in a
semicolon. -/
theorem restoreLine_skipped {state : StreamState} (atRest : AtRest state) {line : String}
    (skipped : Skipped (trimSuffix line "\r")) (notHeader : isCopyHeader (trimSuffix line "\r") = false)
    (trimmedPlain : Plain (trimSuffix line "\r")) :
    AtRest (restoreLine state line).1 ∧ (restoreLine state line).2 = [] := by
  obtain ⟨lines, isJoined, resting⟩ := atRest.collected
  have noTag : updateDollarTag (trimSuffix line "\r") "" = "" :=
    updateDollarTag_of_noTag trimmedPlain.noTag
  have joined : state.stmt ++ trimSuffix line "\r" ++ "\n" =
      joinLines (lines ++ [trimSuffix line "\r"]) := by
    rw [isJoined, joinLines_concat]
  unfold restoreLine
  simp only [atRest.notCopy, atRest.noTag, notHeader, noTag, Bool.false_eq_true, and_false,
    true_and, ↓reduceIte]
  by_cases ends : endsStatement (trimSuffix line "\r") = true
  · rw [if_pos ends]
    refine ⟨⟨rfl, rfl, [], rfl, by simp⟩, ?_⟩
    rw [List.map_eq_nil_iff, joined]
    apply execStmtGroup_skipped
    · intro other member
      rcases List.mem_append.mp member with early | isLine
      · exact (resting other early).oneLine
      · rw [List.mem_singleton.mp isLine]
        exact trimmedPlain.oneLine
    · intro other member
      rcases List.mem_append.mp member with early | isLine
      · exact (resting other early).skipped
      · rw [List.mem_singleton.mp isLine]
        exact skipped
  · rw [if_neg ends]
    refine ⟨⟨rfl, rfl, lines ++ [trimSuffix line "\r"], joined, ?_⟩, rfl⟩
    intro other member
    rcases List.mem_append.mp member with early | isLine
    · exact resting other early
    · rw [List.mem_singleton.mp isLine]
      exact ⟨trimmedPlain.oneLine, skipped, trimmedPlain.noTag, by simpa using ends⟩

/-- A carriage return at the end of a comment changes nothing. -/
theorem commentLine_trimmed (label : String) :
    ∃ rest, trimSuffix ("-- " ++ label) "\r" = "--" ++ rest := by
  have begins : "--".toList <+: ("-- " ++ label).toList := ⟨(" " ++ label).toList, by simp⟩
  rcases trimSuffix_cases ("-- " ++ label) "\r" with same | shape
  · rw [same]
    exact ⟨" " ++ label, by rw [← String.append_assoc]; rfl⟩
  · have isPrefix : (trimSuffix ("-- " ++ label) "\r").toList <+: ("-- " ++ label).toList := by
      refine ⟨"\r".toList, ?_⟩
      rw [← String.toList_append, ← shape]
    have longEnough : "--".toList.length ≤ (trimSuffix ("-- " ++ label) "\r").toList.length := by
      have lengths := congrArg (fun text => text.toList.length) shape
      simp at lengths
      simp
      omega
    obtain ⟨rest, isRest⟩ := List.prefix_of_prefix_length_le begins isPrefix longEnough
    exact ⟨String.ofList rest, String.toList_injective (by rw [← isRest]; simp)⟩

theorem Plain.trimSuffix {text : String} (plain : Plain text) (ending : String) :
    Plain (trimSuffix text ending) := by
  rcases trimSuffix_cases text ending with same | shape
  · rwa [same]
  · constructor
    · intro newline
      apply plain.oneLine
      rw [shape, String.toList_append]
      exact List.mem_append_left _ newline
    · have noTag := plain.noTag
      rw [shape, String.toList_append] at noTag
      exact openTag_of_append noTag

theorem plain_commentLine {label : String} (plain : Plain label) : Plain ("-- " ++ label) where
  oneLine := OneLine.append (by decide) plain.oneLine
  noTag := by
    have shape : ("-- " ++ label).toList = '-' :: '-' :: ' ' :: label.toList := by simp
    rw [shape]
    simp [openTag, plain.noTag]

/-- What a piece sends, and how it leaves the restorer. -/
def Sends (state : StreamState) (piece : Piece) : Prop :=
  AtRest (restoreLines state piece.lines).1 ∧
    (restoreLines state piece.lines).2.map Sent.statement = piece.emitted

theorem sends_gap (atRest : AtRest state) : Sends state .gap := by
  have blank := @restoreLine_skipped state atRest "" (.inl (by decide)) (by decide)
    ⟨by decide, by decide⟩
  unfold Sends Piece.lines restoreLines
  simp only [restoreLines, List.append_nil, blank.2, List.map_nil]
  exact ⟨blank.1, rfl⟩

theorem sends_comment (atRest : AtRest state) {label : String}
    (plain : Plain label) : Sends state (.comment label) := by
  obtain ⟨rest, begins⟩ := commentLine_trimmed label
  have comment : Skipped (trimSuffix ("-- " ++ label) "\r") := by
    right
    obtain ⟨kept, trimmed⟩ := @trimSpace_append "--" (by decide) rest
    unfold isComment
    rw [begins, trimmed]
    exact hasPrefix_append _ _
  have notHeader : isCopyHeader (trimSuffix ("-- " ++ label) "\r") = false := by
    rw [begins]
    simp [isCopyHeader, hasPrefix]
  have blank := @restoreLine_skipped state atRest "" (.inl (by decide)) (by decide)
    ⟨by decide, by decide⟩
  have commented := restoreLine_skipped blank.1 comment notHeader
    ((plain_commentLine plain).trimSuffix "\r")
  unfold Sends Piece.lines
  simp only [restoreLines, List.append_nil, blank.2, commented.2, List.map_nil]
  exact ⟨commented.1, rfl⟩

/-- The lines of a whole statement are collected up to its last one, which
sends the group. -/
theorem restoreLines_whole {state : StreamState} (notCopy : state.inCopy = false)
    {before lines : List String} (collected : state.stmt = joinLines before)
    (noReturn : ∀ line ∈ lines, hasSuffix line "\r" = false) (whole : WholeLines state.tag lines) :
    restoreLines state lines = ({ state with tag := "", stmt := "" },
      (execStmtGroup (joinLines (before ++ lines))).map .exec) := by
  induction lines generalizing state before with
  | nil => exact absurd whole id
  | cons line rest ih =>
    obtain ⟨notHeader, ends⟩ := whole
    have sameLine : trimSuffix line "\r" = line :=
      trimSuffix_of_not_hasSuffix (noReturn line List.mem_cons_self)
    have notCopyLine : ¬ (state.tag = "" ∧ isCopyHeader line = true) := by
      intro ⟨noTag, isHeader⟩
      rw [notHeader noTag] at isHeader
      exact absurd isHeader (by decide)
    have joined : state.stmt ++ line ++ "\n" = joinLines (before ++ [line]) := by
      rw [collected, joinLines_concat]
    rw [restoreLines]
    by_cases isLast : rest = []
    · rw [if_pos isLast] at ends
      have stepped : restoreLine state line = ({ state with tag := "", stmt := "" },
          (execStmtGroup (joinLines (before ++ [line]))).map .exec) := by
        unfold restoreLine
        simp only [sameLine, notCopy, Bool.false_eq_true, ↓reduceIte]
        rw [if_neg notCopyLine, if_pos ends, joined, ends.1]
      rw [stepped, isLast]
      simp [restoreLines]
    · rw [if_neg isLast] at ends
      have stepped : restoreLine state line =
          ({ state with tag := updateDollarTag line state.tag,
                        stmt := joinLines (before ++ [line]) }, []) := by
        unfold restoreLine
        simp only [sameLine, notCopy, Bool.false_eq_true, ↓reduceIte]
        rw [if_neg notCopyLine, if_neg ends.1, joined]
      have later := @ih
        { state with tag := updateDollarTag line state.tag,
                     stmt := joinLines (before ++ [line]) }
        notCopy (before ++ [line]) rfl
        (List.forall_mem_cons.mp noReturn).2 ends.2
      rw [stepped]
      simp only [later, List.nil_append, List.append_assoc, List.singleton_append]

theorem sends_sql (atRest : AtRest state) {text : String}
    (whole : Whole text) : Sends state (.sql text) := by
  obtain ⟨lines, collected, resting⟩ := atRest.collected
  obtain ⟨sql, group, isText⟩ := execStmtGroup_whole resting whole
  have read := restoreLines_whole atRest.notCopy collected
    (fun line member => (whole.kept line member).2) (by rw [atRest.noTag]; exact whole.lines)
  unfold Sends Piece.lines Piece.emitted
  rw [read, group]
  refine ⟨⟨atRest.notCopy, rfl, [], rfl, by simp⟩, ?_⟩
  simp [Sent.statement, isText]

/-- Rows are collected until the line that ends the data. -/
theorem restoreLines_rows {state : StreamState} (inCopy : state.inCopy = true)
    {rows : List String} (data : ∀ row ∈ rows, trimSuffix row "\r" ≠ "\\.") :
    ∃ buffer, restoreLines state rows = ({ state with copyBuf := buffer }, []) := by
  induction rows generalizing state with
  | nil => exact ⟨state.copyBuf, rfl⟩
  | cons row rest ih =>
    have notEnd := data row List.mem_cons_self
    have stepped : ∃ buffer, restoreLine state row = ({ state with copyBuf := buffer }, []) := by
      unfold restoreLine
      simp only [inCopy, ↓reduceIte]
      rw [if_neg notEnd]
      split
      · exact ⟨_, rfl⟩
      · exact ⟨_, rfl⟩
    obtain ⟨buffer, isStep⟩ := stepped
    obtain ⟨last, later⟩ := @ih { state with copyBuf := buffer } inCopy
      (List.forall_mem_cons.mp data).2
    refine ⟨last, ?_⟩
    rw [restoreLines, isStep]
    simp only [later, List.append_nil]

variable {header : String} {rows : List String}

theorem IsCopyBlock.header_ne_empty (block : IsCopyBlock header rows) : header ≠ "" := by
  rintro rfl
  exact absurd block.begins (by decide)

theorem restoreLine_copyHeader (atRest : AtRest state)
    (block : IsCopyBlock header rows) : restoreLine state (header ++ ";") =
      ({ state with stmt := "", copyHeader := header, inCopy := true }, []) := by
  have sameLine : trimSuffix (header ++ ";") "\r" = header ++ ";" := by
    apply trimSuffix_of_not_hasSuffix
    rw [hasSuffix_append_eq _ _ _ (by decide)]
    decide
  have isHeader : isCopyHeader (header ++ ";") = true := by
    obtain ⟨rest, begins⟩ := (hasPrefix_iff _ _).mp block.begins
    obtain ⟨start, ends⟩ := (hasSuffix_iff _ _).mp block.ends
    unfold isCopyHeader
    rw [Bool.and_eq_true]
    constructor
    · rw [begins, String.append_assoc]
      exact hasPrefix_append _ _
    · have shape : header ++ ";" = start ++ " FROM stdin;" ++ "" := by
        rw [ends]
        apply String.toList_injective
        simp
      rw [shape]
      exact contains_append _ _ _
  unfold restoreLine
  simp only [sameLine, atRest.notCopy, Bool.false_eq_true, ↓reduceIte]
  rw [if_pos ⟨atRest.noTag, isHeader⟩, atRest.execStmtGroup, trimSuffix_append]
  rfl

theorem sends_copy (atRest : AtRest state)
    (block : IsCopyBlock header rows) : Sends state (.copy header rows) := by
  have headerNotEmpty := block.header_ne_empty
  have headed := restoreLine_copyHeader atRest block
  obtain ⟨buffer, read⟩ := @restoreLines_rows
    { state with stmt := "", copyHeader := header, inCopy := true } rfl rows block.rowData
  have endLine : trimSuffix "\\." "\r" = "\\." := by decide
  have closed : ∃ payload, restoreLine
      { state with stmt := "", copyHeader := header, inCopy := true, copyBuf := buffer } "\\." =
      ({ state with stmt := "", copyHeader := "", inCopy := false, copyBuf := "" },
        [.copy header payload]) := by
    unfold restoreLine pgExecCopy
    simp only [endLine, headerNotEmpty, ↓reduceIte]
    split
    · exact ⟨_, rfl⟩
    · exact ⟨_, rfl⟩
  obtain ⟨payload, isClosed⟩ := closed
  have lines : Piece.lines (.copy header rows) = (header ++ ";") :: (rows ++ ["\\."]) := rfl
  unfold Sends
  rw [lines, restoreLines, headed]
  simp only [restoreLines_append, read, restoreLines, isClosed]
  exact ⟨⟨rfl, atRest.noTag, [], rfl, by simp⟩, rfl⟩

theorem sends_of_clean (atRest : AtRest state) {piece : Piece}
    (clean : piece.Clean) : Sends state piece := by
  cases piece with
  | comment label => exact sends_comment atRest clean
  | sql text => exact sends_sql atRest clean
  | copy header rows => exact sends_copy atRest clean
  | gap => exact sends_gap atRest

theorem restoreLines_pieces (atRest : AtRest state) (clean : ∀ piece ∈ pieces, piece.Clean) :
    AtRest (restoreLines state (pieces.flatMap Piece.lines)).1 ∧
      (restoreLines state (pieces.flatMap Piece.lines)).2.map Sent.statement =
        pieces.flatMap Piece.emitted := by
  induction pieces generalizing state with
  | nil => exact ⟨atRest, rfl⟩
  | cons piece rest ih =>
    have now := sends_of_clean atRest (clean piece List.mem_cons_self)
    have later := ih now.1 (List.forall_mem_cons.mp clean).2
    rw [List.flatMap_cons, List.flatMap_cons, restoreLines_append]
    refine ⟨later.1, ?_⟩
    rw [List.map_append, now.2, later.2]

/-- A dump of clean pieces reaches the server as its statements, in order. -/
theorem sentStatements_render (clean : ∀ piece ∈ pieces, piece.Clean) :
    (sentStatements (render pieces)).map Sent.statement = pieces.flatMap Piece.emitted := by
  have start : AtRest {} := ⟨rfl, rfl, [], rfl, by simp⟩
  have read := restoreLines_pieces start clean
  unfold sentStatements
  rw [textLines_render clean]
  simp only
  rw [read.1.execStmtGroup, List.map_nil, List.append_nil]
  exact read.2

end DbBackup.Engine.Postgres.Stream
