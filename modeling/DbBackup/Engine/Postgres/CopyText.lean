import DbBackup.Engine.Postgres.PlainDump
import DbBackup.Lib.Escaped

/-!
Owns the way of a table's rows through `copyData`, the restorer and the text
format of COPY.

Contract: exactly when the server reads the rows that were dumped
(`copyPasses_iff`). The restorer infers from an empty buffer that no row has
been read, so the empty lines before the first other line are lost, and it
takes an empty last line for the end of the line before it.
-/

set_option linter.all false

namespace DbBackup.Engine.Postgres.CopyText

open Lib.Escaped Lib.GoString Lib.LineScan Engine.Postgres.Stream Engine.Postgres.Dumper

/-! ### The text format of COPY -/

def decodeField (field : List Char) : Option String :=
  if field = ['\\', 'N'] then none else some (String.ofList (unescape .plain field))

def decodeRow (line : List Char) : List (Option String) :=
  (cutAt '\t' [] line).map decodeField

/-- The rows the server reads: up to a line that ends the data, or up to the
end. What follows the last newline is a row only if it is not empty. -/
def decodeCopy (payload : String) : List (List (Option String)) :=
  let lines := cutAt '\n' [] payload.toList
  let rows := if lines.getLast? = some [] then lines.dropLast else lines
  (rows.takeWhile (· ≠ ['\\', '.'])).map decodeRow

/-- Every restore of the table's data sends one COPY, for this table, and the
server reads the rows that were dumped. -/
def CopyPasses (cat : Catalogue) (schema table : String) : Prop :=
  ∀ accepts : List Sent → Bool, ∃ payload,
    pgRestoreStream accepts (render (copyData cat schema table)) =
      [.copy (copyHeader schema table (cat.relation schema table).copyColumns) payload] ∧
    decodeCopy payload = (cat.relation schema table).rows

/-- The names stay in one line, and in a table of one column neither the first
nor the last row is an empty text. -/
structure CopyKept (schema table : String) (r : Relation) : Prop where
  schemaLine : OneLine schema
  tableLine : OneLine table
  columnLines : ∀ column ∈ r.copyColumns, OneLine column
  firstRow : r.rows.head? ≠ some [some ""]
  lastRow : r.rows.getLast? ≠ some [some ""]

/-! ### One value and one row -/

theorem unescape_copyEscape (c : Char) (rest : List Char) :
    unescape .plain (copyEscape c ++ rest) = c :: unescape .plain rest := by
  unfold copyEscape
  by_cases backslash : c = '\\'
  · subst backslash
    rfl
  · by_cases tab : c = '\t'
    · subst tab
      rfl
    · by_cases newline : c = '\n'
      · subst newline
        rfl
      · by_cases carriage : c = '\r'
        · subst carriage
          rfl
        · simp [backslash, tab, newline, carriage, unescape, Escape.next, Escape.restart]

theorem unescape_escape (value : List Char) :
    unescape .plain (value.flatMap copyEscape) = value := by
  induction value with
  | nil => rfl
  | cons c rest ih =>
    rw [List.flatMap_cons, unescape_copyEscape, ih]

variable {sep : Char}

theorem guarded_copyEscape (isSep : sep = '\t' ∨ sep = '\n') (c : Char) :
    Guarded sep (copyEscape c) := by
  unfold copyEscape
  by_cases backslash : c = '\\'
  · simp [backslash, Guarded]
  · by_cases tab : c = '\t'
    · simp [tab, Guarded]
    · by_cases newline : c = '\n'
      · simp [newline, Guarded]
      · by_cases carriage : c = '\r'
        · simp [carriage, Guarded]
        · rcases isSep with rfl | rfl
          · simp [backslash, tab, newline, carriage, Guarded]
          · simp [backslash, tab, newline, carriage, Guarded]

theorem guarded_escape (isSep : sep = '\t' ∨ sep = '\n') (value : List Char) :
    Guarded sep (value.flatMap copyEscape) := by
  induction value with
  | nil => trivial
  | cons c rest ih =>
    exact (guarded_copyEscape isSep c).append ih

/-- The text of a field. -/
def fieldText : Option String → List Char
  | none => ['\\', 'N']
  | some value => value.toList.flatMap copyEscape

theorem guarded_fieldText (isSep : sep = '\t' ∨ sep = '\n') (field : Option String) :
    Guarded sep (fieldText field) := by
  cases field with
  | none => exact trivial
  | some value => exact guarded_escape isSep value.toList

/-- An escaped text is not the mark of a null. -/
theorem escape_ne_null (value : List Char) : value.flatMap copyEscape ≠ ['\\', 'N'] := by
  intro isNull
  have back := unescape_escape value
  rw [isNull] at back
  rw [← back] at isNull
  exact absurd isNull (by decide)

theorem decodeField_fieldText (field : Option String) : decodeField (fieldText field) = field := by
  cases field with
  | none => rfl
  | some value =>
    unfold decodeField fieldText
    rw [if_neg (escape_ne_null value.toList), unescape_escape, String.ofList_toList]

theorem copyLine_single (field : Option String) : (copyLine [field]).toList = fieldText field := by
  cases field with
  | none => rfl
  | some value => simpa [copyLine, fieldText] using toList_escapePgCopy value

theorem copyLine_cons_cons (field next : Option String) (others : List (Option String)) :
    copyLine (field :: next :: others) = copyLine [field] ++ "\t" ++ copyLine (next :: others) := by
  unfold copyLine
  rw [List.map_cons, List.map_cons, String.intercalate_cons_cons]
  simp

theorem toList_copyLine (row : List (Option String)) :
    (copyLine row).toList = ['\t'].intercalate (row.map fieldText) := by
  induction row with
  | nil => rfl
  | cons field rest ih =>
    cases rest with
    | nil => simpa using copyLine_single field
    | cons next others =>
      rw [copyLine_cons_cons, String.toList_append, String.toList_append, copyLine_single,
        ih]
      simp only [List.map_cons, List.intercalate_cons_cons]
      rfl

theorem decodeRow_copyLine {row : List (Option String)} (notEmpty : row ≠ []) :
    decodeRow (copyLine row).toList = row := by
  have guarded : ∀ part ∈ row.map fieldText, Guarded '\t' part := by
    intro part member
    obtain ⟨field, -, rfl⟩ := List.mem_map.mp member
    exact guarded_fieldText (.inl rfl) field
  unfold decodeRow
  rw [toList_copyLine, cutAt_intercalate (by decide) guarded (by simpa using notEmpty),
    List.map_map]
  conv_rhs => rw [← List.map_id row]
  exact List.map_congr_left fun field _ => decodeField_fieldText field

theorem guarded_copyLine (row : List (Option String)) : Guarded '\n' (copyLine row).toList := by
  rw [toList_copyLine]
  induction row with
  | nil => trivial
  | cons field rest ih =>
    have own := guarded_fieldText (.inr rfl) field
    cases rest with
    | nil => simpa using own
    | cons next others =>
      rw [List.map_cons, List.map_cons, List.intercalate_cons_cons]
      refine (own.append ?_).append ih
      simp [Guarded]

theorem copyLine_eq_empty_iff {row : List (Option String)} (notEmpty : row ≠ []) :
    copyLine row = "" ↔ row = [some ""] := by
  constructor
  · intro empty
    rw [← decodeRow_copyLine notEmpty, empty]
    rfl
  · rintro rfl
    rfl

/-! ### The buffer of the restorer -/

/-- What the restorer does with a line of data. -/
def collect (buffer line : String) : String :=
  if buffer = "" then line else buffer ++ "\n" ++ line

theorem restoreLines_collect {state : StreamState} (inCopy : state.inCopy = true)
    {lines : List String} (data : ∀ line ∈ lines, line ≠ "\\." ∧ trimSuffix line "\r" = line) :
    restoreLines state lines = ({ state with copyBuf := lines.foldl collect state.copyBuf }, []) := by
  induction lines generalizing state with
  | nil => rfl
  | cons line rest ih =>
    obtain ⟨notEnd, sameLine⟩ := data line List.mem_cons_self
    have step : restoreLine state line =
        ({ state with copyBuf := collect state.copyBuf line }, []) := by
      unfold restoreLine collect
      simp only [inCopy, sameLine, notEnd, ↓reduceIte]
      split
      · rfl
      · rfl
    have later := @ih { state with copyBuf := collect state.copyBuf line } inCopy
      (List.forall_mem_cons.mp data).2
    rw [restoreLines, step]
    simp only [later, List.append_nil, List.foldl_cons]

theorem foldl_collect {buffer : String} (notEmpty : buffer ≠ "") (lines : List String) :
    lines.foldl collect buffer = "\n".intercalate (buffer :: lines) := by
  induction lines generalizing buffer with
  | nil => simp
  | cons line rest ih =>
    have stepped : collect buffer line = buffer ++ "\n" ++ line := if_neg notEmpty
    have longer : buffer ++ "\n" ++ line ≠ "" := by
      intro empty
      have chars := congrArg String.toList empty
      simp at chars
    rw [List.foldl_cons, stepped, ih longer, String.intercalate_cons_cons]
    cases rest with
    | nil => simp [String.append_assoc]
    | cons next others =>
      rw [String.intercalate_cons_cons, String.intercalate_cons_cons]
      simp only [String.append_assoc]

/-- The empty lines before the first other one are lost. -/
theorem foldl_collect_empty (lines : List String) :
    lines.foldl collect "" = "\n".intercalate (lines.dropWhile (· = "")) := by
  induction lines with
  | nil => rfl
  | cons line rest ih =>
    rw [List.foldl_cons, show collect "" line = line from rfl]
    by_cases empty : line = ""
    · subst empty
      rw [ih, List.dropWhile_cons_of_pos (by decide)]
    · rw [foldl_collect empty, List.dropWhile_cons_of_neg (by simpa using empty)]

/-- A join of lines, and the newline it lacks. -/
theorem intercalate_newline (lines : List String) (last : String) :
    "\n".intercalate (lines ++ [last]) = joinLines lines ++ last := by
  induction lines with
  | nil =>
    apply String.toList_injective
    simp [joinLines]
  | cons line rest ih =>
    have shape : ∃ next others, rest ++ [last] = next :: others := by
      cases rest with
      | nil => exact ⟨last, [], rfl⟩
      | cons next others => exact ⟨next, others ++ [last], rfl⟩
    obtain ⟨next, others, isTail⟩ := shape
    rw [List.cons_append, isTail, String.intercalate_cons_cons, ← isTail, ih]
    apply String.toList_injective
    simp [joinLines]

/-- The lines that are left of the data. -/
def keptLines (lines : List String) : List String :=
  let kept := lines.dropWhile (· = "")
  if kept.getLast? = some "" then kept.dropLast else kept

theorem pgExecCopy_collect {header : String} (named : header ≠ "") {lines : List String}
    (oneLine : ∀ line ∈ lines, OneLine line) :
    pgExecCopy header (lines.foldl collect "") = [.copy header (joinLines (keptLines lines))] := by
  rw [foldl_collect_empty]
  unfold pgExecCopy keptLines
  rw [if_neg named]
  have keptLine : ∀ line ∈ lines.dropWhile (· = ""), OneLine line := fun line member =>
    oneLine line ((List.dropWhile_sublist _).subset member)
  have keptHead : ∀ line, (lines.dropWhile (· = "")).head? = some line → line ≠ "" := by
    intro line isHead empty
    have fails := List.head?_dropWhile_not (· = "") lines
    rw [isHead] at fails
    simp [empty] at fails
  generalize lines.dropWhile (· = "") = kept at keptLine keptHead ⊢
  rcases List.eq_nil_or_concat kept with rfl | ⟨init, last, rfl⟩
  · simp [joinLines]
  · rw [List.concat_eq_append] at *
    rw [intercalate_newline]
    have lastLine := keptLine last (by simp)
    by_cases empty : last = ""
    · subst empty
      cases init with
      | nil => exact absurd rfl (keptHead "" rfl)
      | cons first others =>
        have ended : hasSuffix (joinLines (first :: others)) "\n" = true := by
          rcases List.eq_nil_or_concat (first :: others) with isNil | ⟨before, final, shape⟩
          · cases isNil
          · rw [shape, List.concat_eq_append, joinLines_concat]
            exact hasSuffix_append _ _
        have isLast : (first :: others ++ [""]).getLast? = some "" := List.getLast?_concat ..
        rw [String.append_empty, if_neg (by simp [ended]), if_pos isLast, List.dropLast_concat]
    · have notEnded : hasSuffix (joinLines init ++ last) "\n" = false := by
        by_contra ends
        rw [Bool.not_eq_false] at ends
        obtain ⟨start, shape⟩ := (hasSuffix_iff _ _).mp ends
        have lastChar := congrArg (fun text => text.toList.getLast?) shape
        have something : last.toList ≠ [] := fun noChars =>
          empty (String.toList_injective noChars)
        simp only [String.toList_append, List.getLast?_append_of_ne_nil _ something,
          show "\n".toList = ['\n'] from rfl, List.getLast?_append_of_ne_nil _
            (List.cons_ne_nil _ _), List.getLast?_singleton] at lastChar
        exact lastLine (List.mem_of_getLast? lastChar)
      have something : joinLines init ++ last ≠ "" := by
        intro noText
        rw [String.append_eq_empty_iff] at noText
        exact empty noText.2
      rw [if_pos ⟨something, notEnded⟩, ← joinLines_concat, if_neg]
      simpa using empty

/-! ### The rows that are left -/

theorem decodeCopy_joinLines {rows : List (List (Option String))}
    (wide : ∀ row ∈ rows, row ≠ []) : decodeCopy (joinLines (rows.map copyLine)) = rows := by
  have chars : (joinLines (rows.map copyLine)).toList =
      (rows.map fun row => (copyLine row).toList).flatMap fun line => line ++ ['\n'] := by
    unfold joinLines
    rw [String.toList_ofList, List.flatMap_map, List.flatMap_map]
  have guarded : ∀ part ∈ rows.map fun row => (copyLine row).toList, Guarded '\n' part := by
    intro part member
    obtain ⟨row, -, rfl⟩ := List.mem_map.mp member
    exact guarded_copyLine row
  have noEnd : ∀ line ∈ rows.map fun row => (copyLine row).toList, line ≠ ['\\', '.'] := by
    intro line member isEnd
    obtain ⟨row, -, rfl⟩ := List.mem_map.mp member
    exact copyLine_ne_end row (String.toList_injective isEnd)
  unfold decodeCopy
  simp only
  rw [chars, cutAt_flatMap (by decide) guarded, if_pos (List.getLast?_concat ..),
    List.dropLast_concat, List.takeWhile_eq_self_iff.mpr fun line member => by
      simpa using noEnd line member, List.map_map]
  conv_rhs => rw [← List.map_id rows]
  exact List.map_congr_left fun row member => decodeRow_copyLine (wide row member)

/-- The rows without the empty texts the restorer loses. -/
def keptRows (rows : List (List (Option String))) : List (List (Option String)) :=
  let kept := rows.dropWhile (· = [some ""])
  if kept.getLast? = some [some ""] then kept.dropLast else kept

theorem keptLines_map {rows : List (List (Option String))} (wide : ∀ row ∈ rows, row ≠ []) :
    keptLines (rows.map copyLine) = (keptRows rows).map copyLine := by
  have dropped : ∀ others : List (List (Option String)), (∀ row ∈ others, row ≠ []) →
      (others.map copyLine).dropWhile (· = "") =
        (others.dropWhile (· = [some ""])).map copyLine := by
    intro others wide
    induction others with
    | nil => rfl
    | cons row rest ih =>
      have empty := copyLine_eq_empty_iff (wide row List.mem_cons_self)
      rw [List.map_cons]
      by_cases isEmpty : row = [some ""]
      · rw [List.dropWhile_cons_of_pos (by simpa using empty.mpr isEmpty),
          List.dropWhile_cons_of_pos (by simpa using isEmpty),
          ih (List.forall_mem_cons.mp wide).2]
      · rw [List.dropWhile_cons_of_neg (by simpa using fun noText => isEmpty (empty.mp noText)),
          List.dropWhile_cons_of_neg (by simpa using isEmpty), List.map_cons]
  unfold keptLines keptRows
  simp only
  rw [dropped rows wide, List.getLast?_map]
  have keptWide : ∀ row ∈ rows.dropWhile (· = [some ""]), row ≠ [] := fun row member =>
    wide row ((List.dropWhile_sublist _).subset member)
  generalize rows.dropWhile (· = [some ""]) = kept at keptWide ⊢
  rcases List.eq_nil_or_concat kept with rfl | ⟨init, last, rfl⟩
  · simp
  · rw [List.concat_eq_append] at *
    have empty := copyLine_eq_empty_iff (keptWide last (by simp))
    rw [List.getLast?_concat, Option.map_some, List.map_append, List.map_cons, List.map_nil,
      List.dropLast_concat, List.dropLast_concat]
    by_cases isEmpty : last = [some ""]
    · rw [if_pos (by rw [empty.mpr isEmpty]), if_pos (by rw [isEmpty])]
    · rw [if_neg (by simpa using fun noText => isEmpty (empty.mp noText)),
        if_neg (by simpa using isEmpty)]
      simp

theorem keptRows_eq_iff (rows : List (List (Option String))) :
    keptRows rows = rows ↔ rows.head? ≠ some [some ""] ∧ rows.getLast? ≠ some [some ""] := by
  unfold keptRows
  simp only
  cases rows with
  | nil => simp
  | cons row rest =>
    by_cases first : row = [some ""]
    · have shorter : ∀ kept : List (List (Option String)), kept.length ≤ rest.length →
          (if kept.getLast? = some [some ""] then kept.dropLast else kept) ≠ row :: rest := by
        intro kept short same
        have sameLength := congrArg List.length same
        split at sameLength
        · rw [List.length_dropLast, List.length_cons] at sameLength
          omega
        · rw [List.length_cons] at sameLength
          omega
      rw [List.dropWhile_cons_of_pos (by simpa using first)]
      have isFirst : ((row :: rest).head? ≠ some [some ""]) ↔ False := by simp [first]
      rw [isFirst, false_and, iff_false]
      exact shorter _ (List.dropWhile_sublist _).length_le
    · rw [List.dropWhile_cons_of_neg (by simpa using first)]
      have isFirst : ((row :: rest).head? ≠ some [some ""]) ↔ True := by simpa using first
      rw [isFirst, true_and]
      split
      · rename_i isLast
        refine ⟨fun same => ?_, fun notLast => absurd isLast notLast⟩
        have sameLength := congrArg List.length same
        rw [List.length_dropLast, List.length_cons] at sameLength
        omega
      · rename_i notLast
        exact ⟨fun _ => notLast, fun _ => rfl⟩

/-! ### What the restorer sends -/

/-- A COPY is sent with a header that stood in one line. -/
def OneLineHeader : Sent → Prop
  | .copy header _ => OneLine header
  | .exec _ => True

variable {state : StreamState}

theorem restoreLine_headers (stored : OneLine state.copyHeader)
    {line : String} (oneLine : OneLine line) :
    OneLine (restoreLine state line).1.copyHeader ∧
      ∀ sent ∈ (restoreLine state line).2, OneLineHeader sent := by
  have trimmed : ∀ text ending, OneLine text → OneLine (trimSuffix text ending) := by
    intro text ending textLine
    rcases trimSuffix_cases text ending with same | shape
    · rwa [same]
    · intro newline
      rw [shape] at textLine
      exact textLine (by simp [newline])
  have execs : ∀ sents : List String, ∀ sent ∈ sents.map Sent.exec, OneLineHeader sent := by
    intro sents sent member
    obtain ⟨sql, -, rfl⟩ := List.mem_map.mp member
    trivial
  unfold restoreLine
  simp only
  split
  · split
    · refine ⟨show OneLine "" by decide, ?_⟩
      unfold pgExecCopy
      split
      · simp
      · split
        · simpa [OneLineHeader] using stored
        · simpa [OneLineHeader] using stored
    · split
      · exact ⟨stored, by simp⟩
      · exact ⟨stored, by simp⟩
  · split
    · dsimp only
      exact ⟨trimmed _ _ (trimmed _ _ oneLine), execs _⟩
    · split
      · exact ⟨stored, execs _⟩
      · exact ⟨stored, by simp⟩

theorem restoreLines_headers (stored : OneLine state.copyHeader)
    {lines : List String} (oneLine : ∀ line ∈ lines, OneLine line) :
    ∀ sent ∈ (restoreLines state lines).2, OneLineHeader sent := by
  induction lines generalizing state with
  | nil => simp [restoreLines]
  | cons line rest ih =>
    have now := restoreLine_headers stored (oneLine line List.mem_cons_self)
    intro sent member
    rw [restoreLines] at member
    simp only [List.mem_append] at member
    rcases member with isNow | isLater
    · exact now.2 sent isNow
    · exact ih now.1
        (List.forall_mem_cons.mp oneLine).2 sent isLater

theorem sentStatements_headers (dump : String) :
    ∀ sent ∈ sentStatements dump, OneLineHeader sent := by
  intro sent member
  unfold sentStatements at member
  simp only [List.mem_append] at member
  rcases member with inLines | inRest
  · exact restoreLines_headers (by decide) (fun line => oneLine_of_mem_textLines) sent inLines
  · obtain ⟨sql, -, rfl⟩ := List.mem_map.mp inRest
    trivial

/-- The line that ends the data, and the empty line after it. -/
theorem restoreLines_dataEnd (inCopy : state.inCopy = true)
    (noTag : state.tag = "") : restoreLines state ["\\.", ""] =
      ({ state with inCopy := false, copyBuf := "", copyHeader := "", stmt := "\n" },
        pgExecCopy state.copyHeader state.copyBuf) := by
  have endLine : trimSuffix "\\." "\r" = "\\." := by decide
  have closed : restoreLine state "\\." =
      ({ state with inCopy := false, copyBuf := "", copyHeader := "", stmt := "" },
        pgExecCopy state.copyHeader state.copyBuf) := by
    unfold restoreLine
    simp only [inCopy, endLine, ↓reduceIte]
  have noHeader : isCopyHeader (trimSuffix "" "\r") = false := by decide
  have stays : updateDollarTag (trimSuffix "" "\r") "" = "" := by decide
  have notEnd : endsStatement (trimSuffix "" "\r") = false := by decide
  have gap : restoreLine
      { state with inCopy := false, copyBuf := "", copyHeader := "", stmt := "" } "" =
      ({ state with inCopy := false, copyBuf := "", copyHeader := "", stmt := "\n" }, []) := by
    unfold restoreLine
    simp only [noTag, noHeader, stays, notEnd]
    rfl
  simp only [restoreLines, closed, gap, List.append_nil]

theorem sentStatements_copyData {cat : Catalogue} {schema table : String}
    (block : IsCopyBlock (copyHeader schema table (cat.relation schema table).copyColumns)
      ((cat.relation schema table).rows.map copyLine)) :
    sentStatements (render (copyData cat schema table)) =
      [.copy (copyHeader schema table (cat.relation schema table).copyColumns)
        (joinLines (keptLines ((cat.relation schema table).rows.map copyLine)))] := by
  have start : AtRest {} := ⟨rfl, rfl, [], rfl, by simp⟩
  have clean : ∀ piece ∈ copyData cat schema table, piece.Clean := by
    intro piece member
    rcases List.mem_cons.mp member with rfl | isGap
    · exact block
    · rw [List.mem_singleton.mp isGap]
      trivial
  have data : ∀ line ∈ (cat.relation schema table).rows.map copyLine,
      line ≠ "\\." ∧ trimSuffix line "\r" = line := by
    intro line member
    obtain ⟨row, -, rfl⟩ := List.mem_map.mp member
    exact ⟨copyLine_ne_end row, trimSuffix_copyLine row⟩
  unfold sentStatements
  rw [textLines_render clean]
  unfold copyData
  simp only [List.flatMap_cons, List.flatMap_nil, List.append_nil, Piece.lines,
    List.cons_append, List.append_assoc, List.nil_append]
  have rows := @restoreLines_collect
    { inCopy := true, copyHeader := copyHeader schema table (cat.relation schema table).copyColumns }
    rfl _ data
  rw [restoreLines, restoreLine_copyHeader start block]
  simp only [restoreLines_append, rows, List.nil_append]
  rw [restoreLines_dataEnd rfl rfl, pgExecCopy_collect block.header_ne_empty block.rowLine]
  have nothing : execStmtGroup "\n" = [] := by decide
  simp only [nothing, List.map_nil, List.append_nil]

theorem oneLine_of_copyHeader {schema table : String} {columns : List String}
    (oneLine : OneLine (copyHeader schema table columns)) :
    OneLine schema ∧ OneLine table ∧ ∀ column ∈ columns, OneLine column := by
  have inHeader : ∀ part c, c ∈ part.toList →
      part = quotePGIdent schema ∨ part = quotePGIdent table ∨
        part = ", ".intercalate (columns.map quotePGIdent) →
      c ∈ (copyHeader schema table columns).toList := by
    intro part c member isPart
    unfold copyHeader qualified
    simp only [String.toList_append, List.mem_append]
    rcases isPart with rfl | rfl | rfl
    · exact .inl (.inl (.inl (.inr (.inl (.inl member)))))
    · exact .inl (.inl (.inl (.inr (.inr member))))
    · exact .inl (.inr member)
  refine ⟨fun newline => ?_, fun newline => ?_, fun column isColumn newline => ?_⟩
  · exact oneLine (inHeader _ _ (mem_quotePGIdent.mpr (.inr newline)) (.inl rfl))
  · exact oneLine (inHeader _ _ (mem_quotePGIdent.mpr (.inr newline)) (.inr (.inl rfl)))
  · refine oneLine (inHeader _ _ ?_ (.inr (.inr rfl)))
    have inPart : ∀ parts : List String, quotePGIdent column ∈ parts →
        '\n' ∈ (", ".intercalate parts).toList := by
      intro parts
      induction parts with
      | nil => simp
      | cons part rest ih =>
        intro member
        cases rest with
        | nil =>
          rw [← List.mem_singleton.mp member]
          simpa using mem_quotePGIdent.mpr (.inr newline)
        | cons next others =>
          rw [String.intercalate_cons_cons, String.toList_append, String.toList_append,
            List.mem_append, List.mem_append]
          rcases List.mem_cons.mp member with isHead | inRest
          · rw [← isHead]
            exact .inl (.inl (mem_quotePGIdent.mpr (.inr newline)))
          · exact .inr (ih inRest)
    exact inPart _ (List.mem_map_of_mem isColumn)

theorem copyPasses_iff (cat : Catalogue) (schema table : String)
    (hasColumn : (cat.relation schema table).copyColumns ≠ [])
    (shaped : ∀ row ∈ (cat.relation schema table).rows,
      row.length = (cat.relation schema table).copyColumns.length) :
    CopyPasses cat schema table ↔ CopyKept schema table (cat.relation schema table) := by
  have wide : ∀ row ∈ (cat.relation schema table).rows, row ≠ [] := by
    rintro row member rfl
    exact hasColumn (List.length_eq_zero_iff.mp (shaped _ member).symm)
  have keptWide : ∀ row ∈ keptRows (cat.relation schema table).rows, row ≠ [] := by
    intro row member
    unfold keptRows at member
    simp only at member
    split at member
    · exact wide row ((List.dropWhile_sublist _).subset (List.dropLast_subset _ member))
    · exact wide row ((List.dropWhile_sublist _).subset member)
  have decoded : decodeCopy (joinLines (keptLines ((cat.relation schema table).rows.map copyLine))) =
      keptRows (cat.relation schema table).rows := by
    rw [keptLines_map wide, decodeCopy_joinLines keptWide]
  constructor
  · intro passes
    obtain ⟨payload, sent, rows⟩ := passes fun _ => true
    unfold pgRestoreStream at sent
    rw [untilRefused_accepting] at sent
    have header : OneLineHeader (.copy (copyHeader schema table
        (cat.relation schema table).copyColumns) payload) :=
      sentStatements_headers _ _ (by rw [sent]; exact List.mem_singleton_self _)
    obtain ⟨schemaLine, tableLine, columnLines⟩ := oneLine_of_copyHeader header
    rw [sentStatements_copyData (isCopyBlock_copyData schemaLine tableLine columnLines _)] at sent
    have samePayload := (Sent.copy.inj (List.cons.inj sent).1).2
    rw [← samePayload, decoded, keptRows_eq_iff] at rows
    exact ⟨schemaLine, tableLine, columnLines, rows.1, rows.2⟩
  · intro kept accepts
    have sent := sentStatements_copyData
      (isCopyBlock_copyData kept.schemaLine kept.tableLine kept.columnLines _)
    refine ⟨_, ?_, decoded.trans ((keptRows_eq_iff _).mpr ⟨kept.firstRow, kept.lastRow⟩)⟩
    unfold pgRestoreStream
    rw [sent, untilRefused]
    split
    · rfl
    · rfl

/-- A table with one column. -/
def notesCatalogue (rows : List (List (Option String))) : Catalogue where
  dbName := "db"
  tables := ["public.notes"]
  relation := fun _ _ => { copyColumns := ["body"], rows }

theorem copyPasses_notes :
    CopyKept "public" "notes" ((notesCatalogue [[some "a\tb"], [none]]).relation "public" "notes") ∧
      CopyPasses (notesCatalogue [[some "a\tb"], [none]]) "public" "notes" := by
  have kept : CopyKept "public" "notes"
      ((notesCatalogue [[some "a\tb"], [none]]).relation "public" "notes") := by
    refine ⟨by decide, by decide, ?_, by decide, by decide⟩
    intro column member
    rw [List.mem_singleton.mp member]
    decide
  exact ⟨kept, (copyPasses_iff (notesCatalogue [[some "a\tb"], [none]]) "public" "notes"
    (by decide) (by decide)).mpr kept⟩

/-- Of two rows with an empty text none is restored. -/
theorem empty_rows_lost :
    ¬ CopyPasses (notesCatalogue [[some ""], [some ""]]) "public" "notes" := by
  intro passes
  obtain ⟨payload, sent, rows⟩ := passes fun _ => true
  unfold pgRestoreStream at sent
  have block : IsCopyBlock (copyHeader "public" "notes" ["body"])
      ([[some ""], [some ""]].map copyLine) :=
    isCopyBlock_copyData (by decide) (by decide) (by
      intro column member
      rw [List.mem_singleton.mp member]
      decide) _
  have sends : sentStatements
      (render (copyData (notesCatalogue [[some ""], [some ""]]) "public" "notes")) =
      [.copy (copyHeader "public" "notes" ["body"])
        (joinLines (keptLines ([[some ""], [some ""]].map copyLine)))] :=
    sentStatements_copyData block
  rw [untilRefused_accepting, sends] at sent
  have samePayload := (Sent.copy.inj (List.cons.inj sent).1).2
  rw [← samePayload] at rows
  exact absurd rows (by decide)

end DbBackup.Engine.Postgres.CopyText
