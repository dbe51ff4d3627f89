import DbBackup.Engine.Mysql.Splitter

/-!
Owns the lexical reading of MySQL text: which characters stand in a string, in
a name in backticks or in a comment, and which stand outside of all of these.

Contract: the scanner of the statement splitter, at work on one line, knows
where the reading has come to (`scan_inMode`).

In a string and in a quoted name the quote stands for itself when it is written
twice, and in a string a backslash takes the next character with it. A comment
that two dashes open needs a blank or the end of the line behind them.
-/

namespace DbBackup.Engine.Mysql

open Lib.GoString Lib.LineScan

inductive Mode where
  | outside
  | single
  | double
  | backtick
  | line
  | block
deriving DecidableEq

def opensLineComment : List Char → Bool
  | '#' :: _ => true
  | ['-', '-'] => true
  | '-' :: '-' :: c :: _ => c = ' ' || c = '\t' || c = '\r' || c = '\n'
  | _ => false

/-- Characters that stand in something, and the reading behind them. -/
def within (mode : Mode) (chars : List Char) (reading : List (Char × Mode) × Mode) :
    List (Char × Mode) × Mode :=
  (chars.map (·, mode) ++ reading.1, reading.2)

/-- Every character with what it stands in, and what is open at the end. A
quote or a mark of a comment stands in what it opens or closes. -/
def lex : Mode → List Char → List (Char × Mode) × Mode
  | mode, [] => ([], mode)
  | .outside, c :: rest =>
    if c = '\'' then within .single [c] (lex .single rest)
    else if c = '"' then within .double [c] (lex .double rest)
    else if c = '`' then within .backtick [c] (lex .backtick rest)
    else if opensLineComment (c :: rest) then within .line [c] (lex .line rest)
    else
      match c, rest with
      | '/', '*' :: more => within .block ['/', '*'] (lex .block more)
      | c, rest => within .outside [c] (lex .outside rest)
  | .single, c :: rest =>
    match c, rest with
    | '\\', d :: more => within .single ['\\', d] (lex .single more)
    | '\'', '\'' :: more => within .single ['\'', '\''] (lex .single more)
    | '\'', rest => within .single ['\''] (lex .outside rest)
    | c, rest => within .single [c] (lex .single rest)
  | .double, c :: rest =>
    match c, rest with
    | '\\', d :: more => within .double ['\\', d] (lex .double more)
    | '"', '"' :: more => within .double ['"', '"'] (lex .double more)
    | '"', rest => within .double ['"'] (lex .outside rest)
    | c, rest => within .double [c] (lex .double rest)
  | .backtick, c :: rest =>
    match c, rest with
    | '`', '`' :: more => within .backtick ['`', '`'] (lex .backtick more)
    | '`', rest => within .backtick ['`'] (lex .outside rest)
    | c, rest => within .backtick [c] (lex .backtick rest)
  | .line, c :: rest =>
    if c = '\n' then within .line [c] (lex .outside rest) else within .line [c] (lex .line rest)
  | .block, c :: rest =>
    match c, rest with
    | '*', '/' :: more => within .block ['*', '/'] (lex .outside more)
    | c, rest => within .block [c] (lex .block rest)

theorem lex_chars (mode : Mode) (chars : List Char) : (lex mode chars).1.map Prod.fst = chars := by
  fun_induction lex mode chars <;> simp_all [within]

/-! ### Blank space -/

theorem opensLineComment_blank {c : Char} {rest : List Char} (blank : isSpace c = true) :
    opensLineComment (c :: rest) = false := by
  unfold opensLineComment
  split
  · rename_i same
    rw [List.cons.injEq] at same
    exact absurd (same.1 ▸ blank) (by decide)
  · rename_i same
    rw [List.cons.injEq] at same
    exact absurd (same.1 ▸ blank) (by decide)
  · rename_i same
    rw [List.cons.injEq] at same
    exact absurd (same.1 ▸ blank) (by decide)
  · rfl

variable {mode : Mode} {chars : List Char}

/-- Blank space opens nothing, and closes nothing but a line comment. -/
theorem lex_blank (blank : ∀ c ∈ chars, isSpace c = true)
    (notLine : mode ≠ .line) : (lex mode chars).2 = mode := by
  have marks : isSpace '\'' = false ∧ isSpace '"' = false ∧ isSpace '`' = false ∧
      isSpace '/' = false ∧ isSpace '*' = false ∧ isSpace '\\' = false := by
    decide
  fun_induction lex mode chars <;> simp_all [within, opensLineComment_blank]

/-- The last mark that is not blank. -/
def lastSolid (marks : List (Char × Mode)) : Option (Char × Mode) :=
  marks.reverse.find? fun mark => !isSpace mark.1

theorem lastSolid_within (mode : Mode) (chars : List Char) (reading : List (Char × Mode) × Mode) :
    lastSolid (within mode chars reading).1 =
      (lastSolid reading.1).or (lastSolid (chars.map (·, mode))) := by
  unfold lastSolid within
  rw [List.reverse_append, List.find?_append]

theorem lastSolid_inside {reading : List (Char × Mode) × Mode}
    {c : Char} (last : lastSolid (within mode chars reading).1 = some (c, .outside))
    (inside : mode ≠ .outside) : lastSolid reading.1 = some (c, .outside) := by
  rw [lastSolid_within] at last
  cases later : lastSolid reading.1 with
  | some mark => simpa [later] using last
  | none =>
    rw [later, Option.none_or] at last
    have member := List.mem_of_find?_eq_some last
    obtain ⟨d, -, same⟩ := List.mem_map.mp (List.mem_reverse.mp member)
    exact absurd (congrArg Prod.snd same) inside

theorem blank_of_lastSolid
    (nothing : lastSolid (lex mode chars).1 = none) : ∀ c ∈ chars, isSpace c = true := by
  unfold lastSolid at nothing
  rw [List.find?_eq_none] at nothing
  intro c member
  rw [← lex_chars mode chars] at member
  obtain ⟨mark, inMarks, rfl⟩ := List.mem_map.mp member
  simpa using nothing mark (List.mem_reverse.mpr inMarks)

/-- Where the last character that is not blank stands outside, nothing is open
at the end. -/
theorem mode_of_lastSolid {c : Char}
    (last : lastSolid (lex mode chars).1 = some (c, .outside)) : (lex mode chars).2 = .outside := by
  fun_induction lex mode chars
  case case7 rest _ _ _ _ _ ih =>
      cases later : lastSolid (lex .outside rest).1 with
      | none => exact lex_blank (blank_of_lastSolid later) (by decide)
      | some mark =>
        rw [lastSolid_within, later, Option.some_or] at last
        exact ih (later.trans last)
  case case1 => cases last
  all_goals
    rename_i ih
    exact ih (lastSolid_inside last (by decide))

/-! ### The scanner -/

def StmtSplitter.inMode (sp : StmtSplitter) (mode : Mode) : StmtSplitter :=
  { sp with
    inSingle := mode = .single
    inDouble := mode = .double
    inBacktick := mode = .backtick
    inLineComment := mode = .line
    inBlockComment := mode = .block }

theorem opensLineComment_eq (oneLine : '\n' ∉ chars) :
    opensLineComment chars = startsLineComment chars := by
  unfold opensLineComment
  split
  · rfl
  · rfl
  · rename_i c rest
    have notNewline : c ≠ '\n' := by
      rintro rfl
      simp at oneLine
    simp [startsLineComment, notNewline]
  · unfold startsLineComment
    split <;> simp_all

theorem scan_inMode (sp : StmtSplitter) (oneLine : '\n' ∉ chars) :
    (sp.inMode mode).scanFrom false chars = sp.inMode (lex mode chars).2 := by
  fun_induction lex mode chars
  -- A backslash at the end of the line.
  case case11 rest _ _ _ _ =>
      cases rest <;> simp_all [StmtSplitter.scanFrom, StmtSplitter.inMode, within]
  case case15 rest _ _ _ _ =>
      cases rest <;> simp_all [StmtSplitter.scanFrom, StmtSplitter.inMode, within]
  all_goals
    simp_all [StmtSplitter.scanFrom, StmtSplitter.inMode, within, opensLineComment_eq,
      List.head?_eq_some_iff]

end DbBackup.Engine.Mysql
