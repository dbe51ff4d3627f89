import DbBackup.Engine.Mysql.RowsRead
import DbBackup.Engine.Mysql.Splitter

/-!
Owns what comes back of the rows that `streamRows` writes, through the restore's
splitter.

Contract: the splitter yields the statements as they were written, one for each batch
(`splitStatements_streamRows`), and their value lists are the rows (`rows_come_back`).
A blob is denoted by its literal unless it is empty and written in hexadecimal
(`blobKept_iff`).

Names may hold newlines, so the header of a statement can stand on several lines; the
scanner is inside backticks at each of their ends. A row is one line, because the
escapes leave no newline in a value.
-/

set_option linter.all false

namespace DbBackup.Engine.Mysql.RowsBack

open Engine.Mysql.InsertText Engine.Mysql.Rows Engine.Mysql.RowsRead Lib.GoString Lib.LineScan

/-! ### The splitter between two characters -/

/-- The splitter at the start of a line: `buf` is collected and `back` says whether a name
is open. -/
def mid (buf : List Char) (back : Bool) : StmtSplitter :=
  { buf := String.ofList buf, inBacktick := back }

/-- The splitter inside a string. -/
def inString (buf : List Char) : StmtSplitter :=
  { buf := String.ofList buf, inSingle := true }

/-- What the restore makes of `rest`, with the line begun in `cur` (reversed). -/
def feed (sp : StmtSplitter) (cur rest : List Char) : List String :=
  sp.run ((splitLines cur rest).map String.ofList)

theorem feed_newline (sp : StmtSplitter) (cur rest : List Char) :
    feed sp cur ('\n' :: rest) =
      (sp.pushLine (String.ofList cur.reverse)).2 ++
        feed (sp.pushLine (String.ofList cur.reverse)).1 [] rest := rfl

theorem feed_char (sp : StmtSplitter) (cur rest : List Char) {c : Char} (notNewline : c ≠ '\n') :
    feed sp cur (c :: rest) = feed sp (c :: cur) rest := by
  rw [feed, splitLines, if_neg notNewline]
  rfl

theorem feed_line (sp : StmtSplitter) {line : List Char} (oneLine : '\n' ∉ line)
    (rest : List Char) :
    feed sp [] (line ++ '\n' :: rest) =
      (sp.pushLine (String.ofList line)).2 ++
        feed (sp.pushLine (String.ofList line)).1 [] rest := by
  rw [feed, splitLines_append [] line rest oneLine]
  rfl

/-! ### Scanning -/

/-- A character that opens nothing and breaks no line. -/
def isSafe (c : Char) : Bool :=
  !(['\'', '"', '`', '#', '-', '/', '\n'].contains c)

theorem startsLineComment_of_safe {c : Char} (safe : isSafe c = true) (rest : List Char) :
    startsLineComment (c :: rest) = false := by
  have differ : c ≠ '#' ∧ c ≠ '-' := by
    constructor
    · rintro rfl
      exact absurd safe (by decide)
    · rintro rfl
      exact absurd safe (by decide)
  unfold startsLineComment
  split
  · rename_i same
    exact absurd (List.cons.inj same).1 differ.1
  · rename_i same
    exact absurd (List.cons.inj same).1 differ.2
  · rename_i same
    exact absurd (List.cons.inj same).1 differ.2
  · rfl

theorem scan_safe {c : Char} (safe : isSafe c = true) (buf rest : List Char) :
    (mid buf false).scanFrom false (c :: rest) = (mid buf false).scanFrom false rest := by
  have notComment := startsLineComment_of_safe safe rest
  have differ : ∀ mark ∈ ['\'', '"', '`', '/'], c ≠ mark := by
    rintro mark member rfl
    simp only [List.mem_cons, List.not_mem_nil, or_false] at member
    rcases member with rfl | rfl | rfl | rfl
    all_goals exact absurd safe (by decide)
  have notSingle := differ '\'' (by decide)
  have notDouble := differ '"' (by decide)
  have notBack := differ '`' (by decide)
  have notSlash := differ '/' (by decide)
  simp [StmtSplitter.scanFrom, mid, notSingle, notDouble, notBack, notSlash, notComment]

theorem scan_backtick (buf rest : List Char) (back : Bool) :
    (mid buf back).scanFrom false ('`' :: rest) = (mid buf (!back)).scanFrom false rest := by
  cases back with
  | false => rfl
  | true => rfl

theorem scan_inName {c : Char} (notBack : c ≠ '`') (buf rest : List Char) :
    (mid buf true).scanFrom false (c :: rest) = (mid buf true).scanFrom false rest := by
  simp [StmtSplitter.scanFrom, mid, notBack]

/-- The text leaves the scanner where it was, before any character but a quote. -/
def Passes (text : List Char) : Prop :=
  ∀ buf c rest, c ≠ '\'' →
    (mid buf false).scanFrom false (text ++ c :: rest) = (mid buf false).scanFrom false (c :: rest)

theorem passes_safe {text : List Char} (safe : ∀ c ∈ text, isSafe c = true) : Passes text := by
  induction text with
  | nil => exact fun _ _ _ _ => rfl
  | cons first others ih =>
    intro buf c rest notQuote
    have tail := ih (List.forall_mem_cons.mp safe).2
    rw [List.cons_append, scan_safe (safe first List.mem_cons_self)]
    exact tail buf c rest notQuote

/-- An escape that the scanner reads to its end inside a string, on one line. -/
structure Quiet (escape : Char → List Char) : Prop where
  scan : ∀ c buf rest,
    (inString buf).scanFrom false (escape c ++ rest) = (inString buf).scanFrom false rest
  oneLine : ∀ c, '\n' ∉ escape c

theorem quiet_stringEscape : Quiet stringEscape where
  scan := by
    intro c buf rest
    rcases stringEscape_cases c with special | ⟨plain, written⟩
    · rcases special with rfl | rfl | rfl | rfl | rfl | rfl
      all_goals rfl
    · simp only [not_or] at plain
      rw [written, List.singleton_append]
      simp [StmtSplitter.scanFrom, inString, plain]
  oneLine := by
    intro c
    rcases stringEscape_cases c with special | ⟨plain, written⟩
    · rcases special with rfl | rfl | rfl | rfl | rfl | rfl
      all_goals decide
    · simp only [not_or] at plain
      rw [written, List.mem_singleton]
      exact fun same => plain.2.2.2.2.1 same.symm

theorem quiet_blobEscape : Quiet blobEscape where
  scan := by
    intro c buf rest
    by_cases isSub : c = '\x1a'
    · subst isSub
      rfl
    · rw [blobEscape, if_neg isSub]
      exact quiet_stringEscape.scan c buf rest
  oneLine := by
    intro c
    by_cases isSub : c = '\x1a'
    · subst isSub
      decide
    · rw [blobEscape, if_neg isSub]
      exact quiet_stringEscape.oneLine c

theorem passes_quoted {escape : Char → List Char} (quiet : Quiet escape) (chars : List Char) :
    Passes ('\'' :: chars.flatMap escape ++ ['\'']) := by
  intro buf c rest notQuote
  have opened : ∀ more, (mid buf false).scanFrom false ('\'' :: more) =
      (inString buf).scanFrom false more := fun _ => rfl
  have closed : (inString buf).scanFrom false ('\'' :: c :: rest) =
      (mid buf false).scanFrom false (c :: rest) := by
    rw [StmtSplitter.scanFrom]
    simp [inString, mid, notQuote]
  have inner : ∀ more, (inString buf).scanFrom false (chars.flatMap escape ++ more) =
      (inString buf).scanFrom false more := by
    intro more
    induction chars with
    | nil => rfl
    | cons first others ih =>
      rw [List.flatMap_cons, List.append_assoc, quiet.scan, ih]
  rw [List.cons_append, List.cons_append, opened, List.append_assoc, inner, List.singleton_append,
    closed]

/-! ### Lines that start outside a name -/

/-- A text of a statement begins with `I` or with a parenthesis. -/
theorem delimiterLine_of_first {first : Char} (mark : first = 'I' ∨ first = '(')
    (rest : List Char) : delimiterLine (String.ofList (first :: rest)) = none := by
  have firm : Firm (String.ofList [first]) := by
    rcases mark with rfl | rfl
    · decide
    · decide
  have split : String.ofList (first :: rest) = String.ofList [first] ++ String.ofList rest := by
    rw [← String.ofList_append]
    rfl
  obtain ⟨kept, trimmed⟩ := trimSpace_append firm (String.ofList rest)
  have noPrefix : hasPrefix (toUpper (trimSpace (String.ofList (first :: rest))))
      "DELIMITER " = false := by
    rw [split, trimmed, ← Bool.not_eq_true, hasPrefix_iff]
    rintro ⟨others, shape⟩
    have chars := congrArg String.toList shape
    have word : "DELIMITER ".toList = 'D' :: "ELIMITER ".toList := by decide
    rw [toUpper, String.toList_ofList, String.toList_append, String.toList_ofList,
      String.toList_append, word, List.map_append, List.map_singleton] at chars
    have same : upperChar first = 'D' := (List.cons.inj chars).1
    rcases mark with rfl | rfl
    · exact absurd same (by decide)
    · exact absurd same (by decide)
  unfold delimiterLine
  simp only [noPrefix, Bool.false_eq_true, if_false]

theorem trimSpace_ne_empty_of_first {first : Char} (mark : first = 'I' ∨ first = '(')
    (rest : List Char) : trimSpace (String.ofList (first :: rest)) ≠ "" := by
  intro blank
  have isBlank := trimSpace_eq_empty_iff.mp blank first
    (by rw [String.toList_ofList]; exact List.mem_cons_self)
  rcases mark with rfl | rfl
  · exact absurd isBlank (by decide)
  · exact absurd isBlank (by decide)

/-- A line is added to the buffer when the scanner ends where it says. -/
theorem addLine_eq_mid {buf line : List Char} {start back : Bool}
    (scanned : (mid buf start).scanFrom false line = mid buf back) :
    (mid buf start).addLine (String.ofList line) = mid (buf ++ line ++ ['\n']) back := by
  have newline : "\n" = String.ofList ['\n'] := by decide
  rw [StmtSplitter.addLine, StmtSplitter.scan, String.toList_ofList, scanned, newline]
  simp only [mid, String.ofList_append]

/-- A line that does not set the delimiter. -/
theorem pushLine_mid {buf line : List Char} {start back : Bool}
    (scanned : (mid buf start).scanFrom false line = mid buf back)
    (noDelimiter : start = false → delimiterLine (String.ofList line) = none)
    (collects : trimSpace (String.ofList line) ≠ "" ∨ buf ≠ []) :
    (mid buf start).pushLine (String.ofList line) =
      if (mid (buf ++ line ++ ['\n']) back).endsStatement then
        ({ mid (buf ++ line ++ ['\n']) back with buf := "" },
          nonEmpty (mid (buf ++ line ++ ['\n']) back).flushed)
      else (mid (buf ++ line ++ ['\n']) back, []) := by
  have asked : (if (mid buf start).neutral && !(mid buf start).inLineComment then
      delimiterLine (String.ofList line) else none) = none := by
    cases start with
    | true => exact if_neg (by simp [mid, StmtSplitter.neutral])
    | false => exact (if_pos (by simp [mid, StmtSplitter.neutral])).trans (noDelimiter rfl)
  have kept : ¬ (trimSpace (String.ofList line) = "" ∧ (mid buf start).buf = "") := by
    rintro ⟨blank, noBuf⟩
    rcases collects with notBlank | notEmpty
    · exact notBlank blank
    · exact notEmpty (by simpa [mid] using congrArg String.toList noBuf)
  rw [StmtSplitter.pushLine, asked]
  dsimp only
  rw [if_neg kept, addLine_eq_mid scanned]

/-- Inside a name nothing ends. -/
theorem endsStatement_inName (buf : List Char) : (mid buf true).endsStatement = false := by
  have open' : ((mid buf true).delimiter = "" || !(mid buf true).neutral ||
      (mid buf true).inLineComment) = true := by
    simp [mid, StmtSplitter.neutral]
  rw [StmtSplitter.endsStatement, if_pos open']

theorem endsStatement_mid (buf : List Char) :
    (mid buf false).endsStatement = hasSuffix (trimSpace (String.ofList buf)) ";" := by
  rw [StmtSplitter.endsStatement, if_neg (by simp [mid, StmtSplitter.neutral])]
  rfl

/-! ### The header -/

/-- Whether a name is open after the text; `none` for a text with an unsafe character
outside names. -/
def nameOpen : Bool → List Char → Option Bool
  | back, [] => some back
  | false, c :: rest =>
    if c = '`' then nameOpen true rest
    else if isSafe c then nameOpen false rest else none
  | true, c :: rest => if c = '`' then nameOpen false rest else nameOpen true rest

theorem nameOpen_append {back after : Bool} {first : List Char}
    (reached : nameOpen back first = some after) (second : List Char) :
    nameOpen back (first ++ second) = nameOpen after second := by
  fun_induction nameOpen back first with
  | case1 back => rw [List.nil_append, Option.some.inj reached]
  | case2 rest ih =>
    rw [List.cons_append, nameOpen, if_pos rfl]
    exact ih reached
  | case3 c rest notBack safe ih =>
    rw [List.cons_append, nameOpen, if_neg notBack, if_pos safe]
    exact ih reached
  | case4 c rest notBack unsafe' => exact absurd reached (Option.some_ne_none _).symm
  | case5 rest ih =>
    rw [List.cons_append, nameOpen, if_pos rfl]
    exact ih reached
  | case6 c rest notBack ih =>
    rw [List.cons_append, nameOpen, if_neg notBack]
    exact ih reached

theorem nameOpen_safe {text : List Char} (safe : ∀ c ∈ text, isSafe c = true) :
    nameOpen false text = some false := by
  induction text with
  | nil => rfl
  | cons c rest ih =>
    have own := safe c List.mem_cons_self
    have notBack : c ≠ '`' := by
      rintro rfl
      exact absurd own (by decide)
    rw [nameOpen, if_neg notBack, if_pos own]
    exact ih (List.forall_mem_cons.mp safe).2

theorem nameOpen_doubled (chars : List Char) : nameOpen true (doubled chars) = some true := by
  induction chars with
  | nil => rfl
  | cons c rest ih =>
    rw [doubled, List.flatMap_cons, ← doubled]
    by_cases isBack : c = '`'
    · rw [if_pos isBack]
      exact ih
    · rw [if_neg isBack, List.singleton_append, nameOpen, if_neg isBack]
      exact ih

theorem nameOpen_ident (name : List UInt8) :
    nameOpen false (quoteMySQLIdent (byteText name)).toList = some false := by
  rw [toList_quoteMySQLIdent, List.cons_append, nameOpen, if_pos rfl,
    nameOpen_append (nameOpen_doubled _)]
  rfl

/-- Texts joined by commas that each leave no name open. -/
theorem nameOpen_commaJoin {parts : List String}
    (closed : ∀ part ∈ parts, nameOpen false part.toList = some false) :
    nameOpen false (commaJoin parts) = some false := by
  induction parts with
  | nil => rfl
  | cons part rest ih =>
    obtain ⟨own, others⟩ := List.forall_mem_cons.mp closed
    have tail := ih others
    cases rest with
    | nil => simpa [commaJoin, List.intercalate] using own
    | cons second others =>
      rw [commaJoin, List.map_cons, List.map_cons, List.intercalate_cons_cons,
        List.append_assoc, nameOpen_append own]
      rw [commaJoin, List.map_cons] at tail
      exact tail

/-- The header without its newline. -/
def headerLine (table : List UInt8) (columns : List Column) : List Char :=
  (insertWord ++ [' ']) ++ ((intoWord ++ [' ']) ++
    (((quoteMySQLIdent (byteText table)).toList ++ [' ']) ++ (['('] ++
      ((commaJoin (columns.map fun column => quoteMySQLIdent (byteText column.name)) ++ [')']) ++
        ([' '] ++ valuesWord)))))

theorem header_eq (table : List UInt8) (columns : List Column) :
    header table columns = headerLine table columns ++ ['\n'] := by
  rw [header_pieces, headerLine]
  simp only [List.append_assoc]

theorem nameOpen_headerLine (table : List UInt8) (columns : List Column) :
    nameOpen false (headerLine table columns) = some false := by
  have insert := nameOpen_safe (List.all_eq_true.mp
    (by decide : (insertWord ++ [' ']).all isSafe = true))
  have into := nameOpen_safe (List.all_eq_true.mp
    (by decide : (intoWord ++ [' ']).all isSafe = true))
  have name : nameOpen false ((quoteMySQLIdent (byteText table)).toList ++ [' ']) =
      some false := by
    rw [nameOpen_append (nameOpen_ident table)]
    rfl
  have names : nameOpen false (commaJoin
      (columns.map fun column => quoteMySQLIdent (byteText column.name)) ++ [')']) =
      some false := by
    rw [nameOpen_append (nameOpen_commaJoin ?_)]
    · rfl
    · intro part member
      obtain ⟨column, -, rfl⟩ := List.mem_map.mp member
      exact nameOpen_ident column.name
  rw [headerLine, nameOpen_append insert, nameOpen_append into, nameOpen_append name,
    nameOpen_append (show nameOpen false ['('] = some false from rfl), nameOpen_append names]
  exact nameOpen_safe (List.all_eq_true.mp (by decide))

/-- The scanner after the part `cur` of a line that began with `buf` collected. -/
structure Reached (buf : List Char) (start : Bool) (cur : List Char) (back : Bool) : Prop where
  scan : ∀ rest, (mid buf start).scanFrom false (cur.reverse ++ rest) =
    (mid buf back).scanFrom false rest
  first : start = false → ∃ rest, cur.reverse = 'I' :: rest
  collected : start = true → buf ≠ []

theorem Reached.char {buf cur : List Char} {start back after : Bool}
    (reached : Reached buf start cur back) {c : Char}
    (step : ∀ rest, (mid buf back).scanFrom false (c :: rest) =
      (mid buf after).scanFrom false rest) : Reached buf start (c :: cur) after := by
  refine ⟨?_, ?_, reached.collected⟩
  · intro rest
    rw [List.reverse_cons, List.append_assoc, List.singleton_append, reached.scan, step]
  · intro outside
    obtain ⟨others, begins⟩ := reached.first outside
    exact ⟨others ++ [c], by rw [List.reverse_cons, begins, List.cons_append]⟩

theorem Reached.pushLine {buf cur : List Char} {start back : Bool}
    (reached : Reached buf start cur back) :
    (mid buf start).pushLine (String.ofList cur.reverse) =
      if (mid (buf ++ cur.reverse ++ ['\n']) back).endsStatement then
        ({ mid (buf ++ cur.reverse ++ ['\n']) back with buf := "" },
          nonEmpty (mid (buf ++ cur.reverse ++ ['\n']) back).flushed)
      else (mid (buf ++ cur.reverse ++ ['\n']) back, []) := by
  refine pushLine_mid ?_ ?_ ?_
  · have scanned := reached.scan []
    rw [List.append_nil] at scanned
    exact scanned
  · intro outside
    obtain ⟨rest, begins⟩ := reached.first outside
    rw [begins]
    exact delimiterLine_of_first (.inl rfl) rest
  · cases isStart : start with
    | true => exact .inr (reached.collected isStart)
    | false =>
      obtain ⟨rest, begins⟩ := reached.first isStart
      rw [begins]
      exact .inl (trimSpace_ne_empty_of_first (.inl rfl) rest)

/-- A line that ends inside a name is collected, and the next begins there. -/
theorem Reached.newline {buf cur : List Char} {start : Bool} (reached : Reached buf start cur true)
    (rest : List Char) :
    feed (mid buf start) cur ('\n' :: rest) =
        feed (mid (buf ++ cur.reverse ++ ['\n']) true) [] rest ∧
      Reached (buf ++ cur.reverse ++ ['\n']) true [] true := by
  constructor
  · rw [feed_newline, reached.pushLine, endsStatement_inName]
    rfl
  · exact ⟨fun _ => rfl, fun inside => absurd inside (by decide), fun _ => by simp⟩

theorem feed_nameOpen (text : List Char) :
    ∀ {buf cur : List Char} {start back after : Bool}, Reached buf start cur back →
      nameOpen back text = some after → ∀ rest, ∃ buf' start' cur',
        feed (mid buf start) cur (text ++ rest) = feed (mid buf' start') cur' rest ∧
          Reached buf' start' cur' after ∧ buf' ++ cur'.reverse = buf ++ cur.reverse ++ text := by
  induction text with
  | nil =>
    intro buf cur start back after reached isOpen rest
    rw [nameOpen] at isOpen
    exact ⟨buf, start, cur, rfl, Option.some.inj isOpen ▸ reached, (List.append_nil _).symm⟩
  | cons c others ih =>
    intro buf cur start back after reached isOpen rest
    -- a character that stays on the line
    have onLine : ∀ {next : Bool}, c ≠ '\n' → Reached buf start (c :: cur) next →
        nameOpen next others = some after → ∃ buf' start' cur',
          feed (mid buf start) cur (c :: others ++ rest) = feed (mid buf' start') cur' rest ∧
            Reached buf' start' cur' after ∧
            buf' ++ cur'.reverse = buf ++ cur.reverse ++ c :: others := by
      intro next notNewline reachedNext openNext
      obtain ⟨buf', start', cur', fed, reached', shape⟩ :=
        ih reachedNext openNext rest
      refine ⟨buf', start', cur', ?_, reached', ?_⟩
      · rw [List.cons_append, feed_char _ _ _ notNewline, fed]
      · rw [shape, List.reverse_cons]
        simp only [List.append_assoc, List.singleton_append]
    by_cases isBack : c = '`'
    · have openNext : nameOpen (!back) others = some after := by
        cases back with
        | false => rwa [nameOpen, if_pos isBack] at isOpen
        | true => rwa [nameOpen, if_pos isBack] at isOpen
      refine onLine (by rw [isBack]; decide) (reached.char fun more => ?_) openNext
      rw [isBack]
      exact scan_backtick buf more back
    · cases back with
      | false =>
        rw [nameOpen, if_neg isBack] at isOpen
        by_cases safe : isSafe c = true
        · rw [if_pos safe] at isOpen
          refine onLine ?_ (reached.char fun more => scan_safe safe buf more) isOpen
          rintro rfl
          exact absurd safe (by decide)
        · rw [if_neg safe] at isOpen
          exact absurd isOpen (Option.some_ne_none _).symm
      | true =>
        rw [nameOpen, if_neg isBack] at isOpen
        by_cases isNewline : c = '\n'
        · subst isNewline
          obtain ⟨fedLine, reachedLine⟩ := reached.newline (others ++ rest)
          obtain ⟨buf', start', cur', fed, reached', shape⟩ :=
            ih reachedLine isOpen rest
          refine ⟨buf', start', cur', ?_, reached', ?_⟩
          · rw [List.cons_append, fedLine, fed]
          · rw [shape, List.reverse_nil]
            simp only [List.append_assoc, List.singleton_append, List.append_nil]
        · exact onLine isNewline
            (reached.char fun more => scan_inName isBack buf more) isOpen

/-! ### The end of a line -/

/-- The text of a statement up to the end of a line, `last` before the newline. -/
theorem trimSpace_lineEnd {text rest : List Char} {last : Char} (begins : text = 'I' :: rest)
    (solid : isSpace last = false) :
    trimSpace (String.ofList (text ++ [last] ++ ['\n'])) = String.ofList (text ++ [last]) := by
  have firm : Firm (String.ofList (text ++ [last])) := by
    rw [Firm, String.toList_ofList, begins, List.getLast?_concat]
    exact ⟨rfl, congrArg some solid⟩
  rw [String.ofList_append]
  exact trimSpace_append_blank firm (by rw [String.toList_ofList]; simp; decide)

theorem hasSuffix_semicolon (text : List Char) (last : Char) :
    hasSuffix (String.ofList (text ++ [last])) ";" = decide (last = ';') := by
  by_cases isSemicolon : last = ';'
  · rw [isSemicolon, String.ofList_append]
    exact hasSuffix_append _ _
  · rw [decide_eq_false isSemicolon, ← Bool.not_eq_true, hasSuffix_iff]
    rintro ⟨start, shape⟩
    have chars := congrArg String.toList shape
    have semicolon : ";".toList = [';'] := by decide
    rw [String.toList_ofList, String.toList_append, semicolon] at chars
    exact isSemicolon (List.cons.inj (List.append_inj' chars rfl).2).1

theorem endsStatement_lineEnd {text rest : List Char} {last : Char} (begins : text = 'I' :: rest)
    (solid : isSpace last = false) :
    (mid (text ++ [last] ++ ['\n']) false).endsStatement = decide (last = ';') := by
  rw [endsStatement_mid, trimSpace_lineEnd begins solid, hasSuffix_semicolon]

theorem feed_header (table : List UInt8) (columns : List Column) (rest : List Char) :
    feed (mid [] false) [] (header table columns ++ rest) =
      feed (mid (header table columns) false) [] rest := by
  obtain ⟨tail, begins⟩ : ∃ tail, headerLine table columns = 'I' :: tail := ⟨_, rfl⟩
  obtain ⟨text, ends⟩ : ∃ text, headerLine table columns = text ++ ['S'] := by
    refine ⟨(insertWord ++ [' ']) ++ ((intoWord ++ [' ']) ++
      (((quoteMySQLIdent (byteText table)).toList ++ [' ']) ++ (['('] ++
        ((commaJoin (columns.map fun column => quoteMySQLIdent (byteText column.name)) ++ [')']) ++
          ([' '] ++ ['V', 'A', 'L', 'U', 'E']))))), ?_⟩
    rw [headerLine]
    simp only [List.append_assoc]
    rfl
  have safe : isSafe 'I' = true := by decide
  have reached : Reached [] false ['I'] false :=
    ⟨fun more => scan_safe safe [] more, fun _ => ⟨[], rfl⟩, fun inside => absurd inside (by decide)⟩
  have isOpen : nameOpen false tail = some false := by
    have whole := nameOpen_headerLine table columns
    rw [begins] at whole
    exact whole
  obtain ⟨buf, start, cur, fed, reachedEnd, shape⟩ :=
    feed_nameOpen tail reached isOpen ('\n' :: rest)
  have isLine : buf ++ cur.reverse = headerLine table columns := by
    rw [shape, begins]
    rfl
  have notEnd : (mid (buf ++ cur.reverse ++ ['\n']) false).endsStatement = false := by
    have textBegins : ∃ more, text = 'I' :: more := by
      cases text with
      | nil =>
        rw [ends] at begins
        exact absurd (List.cons.inj begins).1 (by decide)
      | cons first more =>
        rw [ends] at begins
        exact ⟨more, by rw [(List.cons.inj begins).1]⟩
    obtain ⟨more, textBegins⟩ := textBegins
    rw [isLine, ends, endsStatement_lineEnd textBegins (by decide)]
    decide
  rw [header_eq, begins, List.cons_append, List.cons_append, feed_char _ _ _ (by decide),
    List.append_assoc, List.singleton_append, fed, feed_newline, reachedEnd.pushLine, notEnd,
    isLine, begins]
  rfl

/-! ### Rows -/

variable {rawBlobs : Bool} {columns : List Column}

/-- A literal is scanned to its end and stands on one line. -/
theorem literal_passes (rawBlobs : Bool) (column : Column) (cell : Cell) :
    Passes (literal rawBlobs column (cellValue cell)).toList ∧
      '\n' ∉ (literal rawBlobs column (cellValue cell)).toList := by
  have quoted : ∀ {escape : Char → List Char}, Quiet escape → ∀ chars : List Char,
      '\n' ∉ '\'' :: chars.flatMap escape ++ ['\''] := by
    intro escape quiet chars member
    rw [List.cons_append, List.mem_cons, List.mem_append, List.mem_singleton] at member
    rcases member with isQuote | inChars | isQuote
    · exact absurd isQuote (by decide)
    · obtain ⟨c, -, inEscape⟩ := List.mem_flatMap.mp inChars
      exact quiet.oneLine c inEscape
    · exact absurd isQuote (by decide)
  cases cell with
  | none =>
    have word : (literal rawBlobs column (cellValue none)).toList = ['N', 'U', 'L', 'L'] := by
      rw [cellValue, literal]
      decide
    rw [word]
    exact ⟨passes_safe (List.all_eq_true.mp (by decide)), by decide⟩
  | some bytes =>
    by_cases hex : (isBlobType column.databaseTypeName && !rawBlobs) = true
    · rw [cellValue, literal, if_pos hex, hexLiteral, String.toList_ofList]
      have safe : ∀ c ∈ '0' :: 'x' :: bytes.flatMap hexByte, isSafe c = true := by
        intro c member
        have isWord : isWordChar c = true := by
          rcases List.mem_cons.mp member with rfl | inRest
          · decide
          · exact isWordChar_hex c inRest
        by_contra notSafe
        rw [isSafe, Bool.not_eq_true', Bool.not_eq_false, List.contains_iff_mem] at notSafe
        have marks : ['\'', '"', '`', '#', '-', '/', '\n'].all (fun mark => !isWordChar mark) =
            true := by decide
        have notWord := List.all_eq_true.mp marks c notSafe
        rw [isWord] at notWord
        exact Bool.noConfusion notWord
      refine ⟨passes_safe safe, fun member => ?_⟩
      exact absurd (safe '\n' member) (by decide)
    · rw [cellValue, literal, if_neg hex]
      by_cases blob : isBlobType column.databaseTypeName = true
      · rw [if_pos blob, toList_quote, toList_escapeBlob]
        exact ⟨passes_quoted quiet_blobEscape _, quoted quiet_blobEscape _⟩
      · rw [if_neg blob, toList_quote, toList_escapeString]
        exact ⟨passes_quoted quiet_stringEscape _, quoted quiet_stringEscape _⟩

theorem commaJoin_passes {parts : List String}
    (passes : ∀ part ∈ parts, Passes part.toList ∧ '\n' ∉ part.toList) :
    Passes (commaJoin parts) ∧ '\n' ∉ commaJoin parts := by
  induction parts with
  | nil => exact ⟨fun _ _ _ _ => rfl, List.not_mem_nil⟩
  | cons part rest ih =>
    obtain ⟨ownPasses, ownLine⟩ := passes part List.mem_cons_self
    obtain ⟨tailPasses, tailLine⟩ := ih (List.forall_mem_cons.mp passes).2
    cases rest with
    | nil =>
      have alone : commaJoin [part] = part.toList := by simp [commaJoin, List.intercalate]
      rw [alone]
      exact ⟨ownPasses, ownLine⟩
    | cons second others =>
      have joined : commaJoin (part :: second :: others) =
          part.toList ++ (',' :: ' ' :: commaJoin (second :: others)) := by
        rw [commaJoin, List.map_cons, List.map_cons, List.intercalate_cons_cons,
          List.append_assoc]
        rfl
      rw [joined]
      constructor
      · intro buf c more notQuote
        rw [List.append_assoc, List.cons_append, ownPasses _ _ _ (by decide),
          scan_safe (by decide), List.cons_append, scan_safe (by decide),
          tailPasses _ _ _ notQuote]
      · intro member
        rcases List.mem_append.mp member with inPart | inRest
        · exact ownLine inPart
        · rw [List.mem_cons, List.mem_cons] at inRest
          rcases inRest with isComma | isSpace | inTail
          · exact absurd isComma (by decide)
          · exact absurd isSpace (by decide)
          · exact tailLine inTail

/-- The text of a row. -/
def rowChars (rawBlobs : Bool) (columns : List Column) (row : List Cell) : List Char :=
  rowText rawBlobs columns (row.map cellValue)

theorem literals_passes (row : List Cell) :
    ∀ part ∈ literals rawBlobs columns (row.map cellValue),
      Passes part.toList ∧ '\n' ∉ part.toList := by
  induction columns generalizing row with
  | nil => exact fun part member => absurd member List.not_mem_nil
  | cons column others ih =>
    cases row with
    | nil => exact fun part member => absurd member List.not_mem_nil
    | cons cell cells =>
      intro part member
      rcases List.mem_cons.mp member with rfl | inRest
      · exact literal_passes rawBlobs column cell
      · exact ih cells part inRest

theorem rowChars_line (row : List Cell) {last : Char} (safe : isSafe last = true) :
    (∀ buf, (mid buf false).scanFrom false (rowChars rawBlobs columns row ++ [last]) =
        mid buf false) ∧
      '\n' ∉ rowChars rawBlobs columns row ++ [last] := by
  obtain ⟨passes, oneLine⟩ := commaJoin_passes (@literals_passes rawBlobs columns row)
  constructor
  · intro buf
    rw [rowChars, rowText, List.append_assoc, List.cons_append, scan_safe (by decide),
      List.singleton_append, passes _ _ _ (by decide), scan_safe (by decide), scan_safe safe]
    rfl
  · intro member
    rw [rowChars, rowText, List.append_assoc, List.cons_append, List.mem_cons, List.mem_append,
      List.singleton_append, List.mem_cons, List.mem_singleton] at member
    rcases member with isOpen | inLiterals | isClose | isLast
    · exact absurd isOpen (by decide)
    · exact oneLine inLiterals
    · exact absurd isClose (by decide)
    · exact absurd (isLast ▸ safe) (by decide)

theorem pushLine_row (buf : List Char) (row : List Cell)
    {last : Char} (safe : isSafe last = true) :
    (mid buf false).pushLine (String.ofList (rowChars rawBlobs columns row ++ [last])) =
      if (mid (buf ++ rowChars rawBlobs columns row ++ [last] ++ ['\n']) false).endsStatement then
        (mid [] false,
          nonEmpty (mid (buf ++ rowChars rawBlobs columns row ++ [last] ++ ['\n']) false).flushed)
      else (mid (buf ++ rowChars rawBlobs columns row ++ [last] ++ ['\n']) false, []) := by
  obtain ⟨scanned, -⟩ := @rowChars_line rawBlobs columns row last safe
  have pushed := pushLine_mid (scanned buf)
    (fun _ => delimiterLine_of_first (.inr rfl) _)
    (.inl (trimSpace_ne_empty_of_first (.inr rfl) _))
  rw [← List.append_assoc buf] at pushed
  rw [pushed]
  rfl

theorem flushed_statement {text more : List Char} (begins : text = 'I' :: more) :
    (mid (text ++ [')'] ++ [';'] ++ ['\n']) false).flushed = String.ofList (text ++ [')']) := by
  have trimmed : trimSpace (mid (text ++ [')'] ++ [';'] ++ ['\n']) false).buf =
      String.ofList (text ++ [')'] ++ [';']) :=
    @trimSpace_lineEnd _ (more ++ [')']) _ (by rw [begins]; rfl) (by decide)
  have semicolon : ";" = String.ofList [';'] := by decide
  have ends : hasSuffix (String.ofList (text ++ [')'] ++ [';'])) ";" = true := by
    rw [hasSuffix_semicolon]
    rfl
  have notEmpty : String.ofList (text ++ [')'] ++ [';']) ≠ "" := by
    intro isEmpty
    have chars := congrArg String.toList isEmpty
    rw [String.toList_ofList] at chars
    simp at chars
  have firm : Firm (String.ofList (text ++ [')'])) := by
    rw [Firm, String.toList_ofList, begins, List.getLast?_concat]
    exact ⟨rfl, rfl⟩
  have cut : trimSuffix (String.ofList (text ++ [')'] ++ [';'])) ";" =
      String.ofList (text ++ [')']) := by
    rw [String.ofList_append, ← semicolon]
    exact trimSuffix_append _ _
  have delimited : (mid (text ++ [')'] ++ [';'] ++ ['\n']) false).delimiter = ";" := rfl
  rw [StmtSplitter.flushed, trimmed, delimited]
  simp only [if_neg notEmpty, ends, cut]
  rw [if_pos (by decide)]
  exact trimSpace_of_firm firm

theorem rowChars_ends (row : List Cell) :
    ∃ text, rowChars rawBlobs columns row = text ++ [')'] :=
  ⟨'(' :: commaJoin (literals rawBlobs columns (row.map cellValue)), rfl⟩

/-- The rows of a statement: every line but the last is collected. -/
theorem feed_rows (others : List (List Cell)) :
    ∀ {row : List Cell} {buf more : List Char}, buf = 'I' :: more → ∀ rest,
      feed (mid buf false) []
          ([',', '\n'].intercalate ((row :: others).map (rowChars rawBlobs columns)) ++
            ';' :: '\n' :: rest) =
        String.ofList
            (buf ++ [',', '\n'].intercalate ((row :: others).map (rowChars rawBlobs columns))) ::
          feed (mid [] false) [] rest := by
  induction others with
  | nil =>
    intro row buf more begins rest
    have safe : isSafe ';' = true := by decide
    obtain ⟨-, oneLine⟩ := @rowChars_line rawBlobs columns row ';' safe
    obtain ⟨text, ends⟩ := @rowChars_ends rawBlobs columns row
    have isEnd : (mid (buf ++ rowChars rawBlobs columns row ++ [';'] ++ ['\n'])
        false).endsStatement = true := by
      rw [@endsStatement_lineEnd _ (more ++ rowChars rawBlobs columns row) _
        (by rw [begins]; rfl) (by decide)]
      rfl
    have flushed : (mid (buf ++ rowChars rawBlobs columns row ++ [';'] ++ ['\n'])
        false).flushed = String.ofList (buf ++ rowChars rawBlobs columns row) := by
      rw [ends, ← List.append_assoc]
      exact @flushed_statement _ (more ++ text) (by rw [begins]; rfl)
    have alone : [',', '\n'].intercalate ([row].map (rowChars rawBlobs columns)) =
        rowChars rawBlobs columns row := by
      simp [List.intercalate]
    have line : rowChars rawBlobs columns row ++ ';' :: '\n' :: rest =
        (rowChars rawBlobs columns row ++ [';']) ++ '\n' :: rest := by
      rw [List.append_assoc]
      rfl
    have notEmpty : String.ofList (buf ++ rowChars rawBlobs columns row) ≠ "" := by
      intro isEmpty
      have chars := congrArg String.toList isEmpty
      rw [String.toList_ofList, begins] at chars
      exact absurd chars (by simp)
    rw [alone, line, feed_line _ oneLine, pushLine_row buf row safe, if_pos isEnd, flushed,
      nonEmpty, if_neg notEmpty]
    rfl
  | cons second others ih =>
    intro row buf more begins rest
    have safe : isSafe ',' = true := by decide
    obtain ⟨-, oneLine⟩ := @rowChars_line rawBlobs columns row ',' safe
    have goesOn : ¬ (mid (buf ++ rowChars rawBlobs columns row ++ [','] ++ ['\n'])
        false).endsStatement = true := by
      rw [@endsStatement_lineEnd _ (more ++ rowChars rawBlobs columns row) _
        (by rw [begins]; rfl) (by decide)]
      decide
    have tail := @ih second
      (buf ++ rowChars rawBlobs columns row ++ [','] ++ ['\n'])
      (more ++ rowChars rawBlobs columns row ++ [','] ++ ['\n']) (by rw [begins]; rfl) rest
    have joined : [',', '\n'].intercalate
          ((row :: second :: others).map (rowChars rawBlobs columns)) =
        rowChars rawBlobs columns row ++ [',', '\n'] ++
          [',', '\n'].intercalate ((second :: others).map (rowChars rawBlobs columns)) :=
      List.intercalate_cons_cons
    have line : [',', '\n'].intercalate
          ((row :: second :: others).map (rowChars rawBlobs columns)) ++ ';' :: '\n' :: rest =
        (rowChars rawBlobs columns row ++ [',']) ++ '\n' ::
          ([',', '\n'].intercalate ((second :: others).map (rowChars rawBlobs columns)) ++
            ';' :: '\n' :: rest) := by
      rw [joined]
      simp only [List.append_assoc, List.cons_append, List.nil_append]
    rw [line, feed_line _ oneLine, pushLine_row buf row safe, if_neg goesOn, List.nil_append,
      tail, joined]
    simp only [List.append_assoc, List.cons_append, List.nil_append]

/-! ### Dumps -/

theorem feed_statement (rawBlobs : Bool) (table : List UInt8) (columns : List Column)
    {group : List (List Cell)} (nonempty : group ≠ []) (rest : List Char) :
    feed (mid [] false) []
        (statement rawBlobs table columns (values group) ++ [';', '\n'] ++ rest) =
      String.ofList (statement rawBlobs table columns (values group)) ::
        feed (mid [] false) [] rest := by
  obtain ⟨row, others, rfl⟩ := List.exists_cons_of_ne_nil nonempty
  have texts : (values (row :: others)).map (rowText rawBlobs columns) =
      (row :: others).map (rowChars rawBlobs columns) := by
    rw [values, List.map_map]
    rfl
  obtain ⟨more, begins⟩ : ∃ more, header table columns = 'I' :: more := by
    rw [header_eq]
    exact ⟨_, rfl⟩
  rw [statement, texts, List.append_assoc, List.append_assoc, feed_header]
  exact feed_rows others begins rest

theorem feed_nil : feed (mid [] false) [] [] = [] := by
  decide

theorem feed_groups (rawBlobs : Bool) (table : List UInt8) (columns : List Column)
    (groups : List (List (List Cell))) (nonempty : ∀ group ∈ groups, group ≠ []) :
    feed (mid [] false) [] (groups.flatMap fun group =>
        statement rawBlobs table columns (values group) ++ [';', '\n']) =
      groups.map fun group => String.ofList (statement rawBlobs table columns (values group)) := by
  induction groups with
  | nil => exact feed_nil
  | cons group rest ih =>
    rw [List.flatMap_cons, feed_statement rawBlobs table columns (nonempty group List.mem_cons_self),
      ih (List.forall_mem_cons.mp nonempty).2,
      List.map_cons]

/-- What the query of `streamRows` gives. Without columns there is no query. -/
structure Selection where
  table : List UInt8
  columns : List Column
  rows : List (List Cell)
  fits : ∀ row ∈ rows, Fits columns row
  selected : columns = [] → rows = []

/-- The text of the statements that `streamRows` writes. -/
def Selection.dump (sel : Selection) (rawBlobs : Bool) (batchBytes : Int) : String :=
  String.ofList (streamRows rawBlobs sel.table sel.columns batchBytes (values sel.rows))

/-- The restore executes the statements as they were written. -/
def PassedThrough (sel : Selection) (rawBlobs : Bool) (batchBytes : Int) : Prop :=
  ∃ groups : List (List (List Cell)), groups.flatten = sel.rows ∧
    (∀ group ∈ groups, group ≠ []) ∧
    splitStatements (sel.dump rawBlobs batchBytes) = groups.map fun group =>
      String.ofList (statement rawBlobs sel.table sel.columns (values group))

theorem exists_groups (groups : List (List (List Value))) :
    ∀ {rows : List (List Cell)}, groups.flatten = values rows →
      ∃ cells : List (List (List Cell)), cells.flatten = rows ∧ cells.map values = groups := by
  induction groups with
  | nil =>
    intro rows shape
    exact ⟨[], (List.map_eq_nil_iff.mp shape.symm).symm, rfl⟩
  | cons group rest ih =>
    intro rows shape
    rw [List.flatten_cons] at shape
    obtain ⟨front, back, rfl, frontShape, backShape⟩ := List.map_eq_append_iff.mp shape.symm
    obtain ⟨cells, flat, isRest⟩ := ih backShape.symm
    refine ⟨front :: cells, by rw [List.flatten_cons, flat], ?_⟩
    rw [List.map_cons, isRest]
    exact congrArg (· :: rest) frontShape

theorem splitStatements_streamRows (sel : Selection) (rawBlobs : Bool) (batchBytes : Int) :
    PassedThrough sel rawBlobs batchBytes := by
  by_cases selects : sel.columns = []
  · refine ⟨[], (sel.selected selects).symm, fun _ member => absurd member List.not_mem_nil, ?_⟩
    rw [Selection.dump, streamRows, if_pos selects]
    exact feed_nil
  · obtain ⟨groups, flat, nonempty, written⟩ :=
      streamRows_eq rawBlobs sel.table selects batchBytes (values sel.rows)
    obtain ⟨cells, cellsFlat, rfl⟩ := exists_groups groups flat
    have cellsNonempty : ∀ group ∈ cells, group ≠ [] := by
      intro group member isNil
      exact nonempty (values group) (List.mem_map_of_mem member) (by rw [isNil]; rfl)
    refine ⟨cells, cellsFlat, cellsNonempty, ?_⟩
    rw [Selection.dump, written, List.flatMap_map, splitStatements, textLines, String.toList_ofList]
    exact feed_groups rawBlobs sel.table sel.columns cells cellsNonempty

/-! ### Rows and blobs -/

/-- The statements executed are inserts into the table that hold the rows in order. -/
def RowsComeBack (sel : Selection) (rawBlobs : Bool) (batchBytes : Int) : Prop :=
  ∃ inserts : List Insert,
    (splitStatements (sel.dump rawBlobs batchBytes)).map (fun stmt => readInsert stmt.toList) =
        inserts.map some ∧
      (∀ stmt ∈ splitStatements (sel.dump rawBlobs batchBytes), stmt ≠ "") ∧
      (∀ insert ∈ inserts, insert.table = sel.table ∧
        insert.columns = sel.columns.map Column.name ∧ insert.rows ≠ []) ∧
      inserts.flatMap Insert.rows = sel.rows

theorem rowsComeBack_of_denoted (sel : Selection) {rawBlobs : Bool}
    (denoted : ∀ row ∈ sel.rows, AllDenoted rawBlobs sel.columns row) (batchBytes : Int) :
    RowsComeBack sel rawBlobs batchBytes := by
  obtain ⟨groups, flat, nonempty, split⟩ := splitStatements_streamRows sel rawBlobs batchBytes
  have inRows : ∀ group ∈ groups, ∀ row ∈ group, row ∈ sel.rows := by
    intro group isGroup row isRow
    rw [← flat]
    exact List.mem_flatten_of_mem isGroup isRow
  have read : ∀ group ∈ groups,
      readInsert (statement rawBlobs sel.table sel.columns (values group)) =
        some ⟨sel.table, sel.columns.map Column.name, group⟩ := by
    intro group isGroup
    have selects : sel.columns ≠ [] := by
      intro noColumns
      obtain ⟨row, others, shape⟩ := List.exists_cons_of_ne_nil (nonempty group isGroup)
      have isRow := inRows group isGroup row (by rw [shape]; exact List.mem_cons_self)
      rw [sel.selected noColumns] at isRow
      exact absurd isRow List.not_mem_nil
    exact readInsert_statement sel.table selects (nonempty group isGroup)
      (fun row isRow => sel.fits row (inRows group isGroup row isRow))
      fun row isRow => denoted row (inRows group isGroup row isRow)
  refine ⟨groups.map fun group => ⟨sel.table, sel.columns.map Column.name, group⟩, ?_, ?_, ?_, ?_⟩
  · rw [split, List.map_map, List.map_map]
    refine List.map_congr_left fun group isGroup => ?_
    rw [Function.comp_apply, String.toList_ofList, read group isGroup]
    rfl
  · intro stmt isStmt isEmpty
    rw [split] at isStmt
    obtain ⟨group, isGroup, rfl⟩ := List.mem_map.mp isStmt
    have nothing := read group isGroup
    have noChars := congrArg String.toList isEmpty
    rw [String.toList_ofList] at noChars
    rw [noChars] at nothing
    exact absurd nothing (Option.some_ne_none _).symm
  · intro insert isInsert
    obtain ⟨group, isGroup, rfl⟩ := List.mem_map.mp isInsert
    exact ⟨rfl, rfl, nonempty group isGroup⟩
  · rw [List.flatMap_map]
    exact List.flatMap_id'.trans flat

/-- For every table, rows of NULLs and byte strings in columns that are no blobs, and
every size limit. -/
theorem rows_come_back (sel : Selection)
    (noBlob : ∀ column ∈ sel.columns, isBlobType column.databaseTypeName = false)
    (rawBlobs : Bool) (batchBytes : Int) : RowsComeBack sel rawBlobs batchBytes := by
  refine rowsComeBack_of_denoted sel ?_ batchBytes
  intro row isRow pair inPairs isBlob
  have isColumn : pair.1 ∈ sel.columns := (List.of_mem_zip inPairs).1
  rw [noBlob pair.1 isColumn] at isBlob
  exact Bool.noConfusion isBlob

def textColumn : Column :=
  ⟨[99], "VARCHAR"⟩

theorem oddRows_fit : ∀ row ∈ [[some [39, 92, 10, 59]], [none]], Fits [textColumn] row := by
  intro row member
  rcases List.mem_pair.mp member with rfl | rfl
  · rfl
  · rfl

/-- A table named with a newline and a backtick, a column of text, and two rows with a
limit that puts each in a statement of its own. -/
def oddTable : Selection where
  table := [97, 10, 96]
  columns := [textColumn]
  rows := [[some [39, 92, 10, 59]], [none]]
  fits := oddRows_fit
  selected := fun noColumns => absurd noColumns (List.cons_ne_nil _ _)

theorem oddTable_comes_back : RowsComeBack oddTable false 1 := by
  refine rows_come_back oddTable ?_ false 1
  intro column member
  rw [List.mem_singleton.mp member]
  decide

structure BlobColumn extends Column where
  isBlob : isBlobType databaseTypeName = true

/-- The value stands in a row of the selection, in that column. -/
def Selection.Holds (sel : Selection) (column : Column) (bytes : List UInt8) : Prop :=
  ∃ row ∈ sel.rows, (column, some bytes) ∈ sel.columns.zip row

/-- The literal is valid and denotes the bytes, and the restore passes it through. -/
def BlobKept (rawBlobs : Bool) (column : BlobColumn) (bytes : List UInt8) : Prop :=
  readLiteral (literal rawBlobs column.toColumn (.bytes bytes)).toList = some (some bytes) ∧
    ∀ sel : Selection, sel.Holds column.toColumn bytes → ∀ batchBytes,
      PassedThrough sel rawBlobs batchBytes

theorem readLiteral_literal (rawBlobs : Bool) (column : Column) (bytes : List UInt8) :
    readLiteral (literal rawBlobs column (.bytes bytes)).toList =
      readCell (literalToken rawBlobs column (some bytes)) :=
  readLiteral_of_whole (whole_literal rawBlobs column (some bytes))

/-- The hexadecimal form of no bytes is `0x`, which is no literal. -/
theorem readLiteral_emptyHex (column : BlobColumn) :
    readLiteral (literal false column.toColumn (.bytes [])).toList = none := by
  have hex : (isBlobType column.databaseTypeName && !false) = true := by
    rw [column.isBlob]
    rfl
  rw [readLiteral_literal, literalToken, if_pos hex]
  decide

theorem blobKept_iff (rawBlobs : Bool) (column : BlobColumn) (bytes : List UInt8) :
    BlobKept rawBlobs column bytes ↔ rawBlobs = true ∨ bytes ≠ [] := by
  constructor
  · rintro ⟨read, -⟩
    cases rawBlobs with
    | true => exact .inl rfl
    | false =>
      refine .inr ?_
      rintro rfl
      rw [readLiteral_emptyHex] at read
      exact absurd read (Option.some_ne_none _).symm
  · intro escapedOrSome
    refine ⟨?_, fun sel _ batchBytes => splitStatements_streamRows sel rawBlobs batchBytes⟩
    rw [readLiteral_literal]
    refine readCell_literalToken ?_
    intro _ hexForm isEmpty
    rcases escapedOrSome with isRaw | nonempty
    · rw [hexForm] at isRaw
      exact Bool.noConfusion isRaw
    · exact nonempty (Option.some.inj isEmpty)

theorem isBlobType_blob : isBlobType "BLOB" = true := by decide

def blobColumn : BlobColumn where
  name := [98]
  databaseTypeName := "BLOB"
  isBlob := isBlobType_blob

theorem emptyBlob_not_kept :
    literal false blobColumn.toColumn (.bytes []) = "0x" ∧ ¬ BlobKept false blobColumn [] := by
  refine ⟨by decide, ?_⟩
  rintro ⟨read, -⟩
  rw [readLiteral_emptyHex] at read
  exact absurd read (Option.some_ne_none _).symm

end DbBackup.Engine.Mysql.RowsBack
