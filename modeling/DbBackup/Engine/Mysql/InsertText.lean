import DbBackup.Lib.Escaped

/-!
Owns how MySQL reads an `INSERT ... VALUES` statement: words, names in backticks,
strings with backslash escapes, and the lists they stand in.

Contract: `readInsert` gives the table, the columns and the rows of a statement whose
values are strings, hexadecimal literals and NULL. Comments, numbers and strings in
double quotes are left out.

`NO_BACKSLASH_ESCAPES` is off. A quote written twice stands for itself. `0x` without a
digit is not a literal.
-/

set_option linter.all false

namespace DbBackup.Engine.Mysql.InsertText

open Lib.Escaped Lib.GoString

/-! ### Tokens -/

inductive Token where
  | word (chars : List Char)
  | name (chars : List Char)
  | text (chars : List Char)
  | symbol (c : Char)
deriving DecidableEq

/-- What is being read. After a quote the next character decides whether it was the end. -/
inductive Scan where
  | between
  | word (chars : List Char)
  | name (chars : List Char)
  | nameQuote (chars : List Char)
  | text (chars : List Char)
  | textEscape (chars : List Char)
  | textQuote (chars : List Char)
deriving DecidableEq

abbrev State := List Token × Scan

def isWordChar (c : Char) : Bool :=
  c.isAlphanum || c = '_' || c = '$'

def unescapeChar (c : Char) : List Char :=
  if c = '0' then ['\x00'] else if c = 'b' then ['\x08'] else if c = 'n' then ['\n']
  else if c = 'r' then ['\r'] else if c = 't' then ['\t'] else if c = 'Z' then ['\x1a']
  else if c = '%' then ['\\', '%'] else if c = '_' then ['\\', '_'] else [c]

def start (tokens : List Token) (c : Char) : Option State :=
  if c = ' ' ∨ c = '\t' ∨ c = '\n' ∨ c = '\r' then some (tokens, .between)
  else if c = '`' then some (tokens, .name [])
  else if c = '\'' then some (tokens, .text [])
  else if isWordChar c then some (tokens, .word [c])
  else if c = '(' ∨ c = ')' ∨ c = ',' then some (tokens ++ [Token.symbol c], .between)
  else none

def next : State → Char → Option State
  | (tokens, .between), c => start tokens c
  | (tokens, .word chars), c =>
    if isWordChar c then some (tokens, .word (chars ++ [c]))
    else start (tokens ++ [.word chars]) c
  | (tokens, .name chars), c =>
    if c = '`' then some (tokens, .nameQuote chars) else some (tokens, .name (chars ++ [c]))
  | (tokens, .nameQuote chars), c =>
    if c = '`' then some (tokens, .name (chars ++ ['`']))
    else start (tokens ++ [.name chars]) c
  | (tokens, .text chars), c =>
    if c = '\\' then some (tokens, .textEscape chars)
    else if c = '\'' then some (tokens, .textQuote chars)
    else some (tokens, .text (chars ++ [c]))
  | (tokens, .textEscape chars), c => some (tokens, .text (chars ++ unescapeChar c))
  | (tokens, .textQuote chars), c =>
    if c = '\'' then some (tokens, .text (chars ++ ['\'']))
    else start (tokens ++ [.text chars]) c

def State.finish : State → Option (List Token)
  | (tokens, .between) => some tokens
  | (tokens, .word chars) => some (tokens ++ [.word chars])
  | (tokens, .nameQuote chars) => some (tokens ++ [.name chars])
  | (tokens, .textQuote chars) => some (tokens ++ [.text chars])
  | _ => none

def tokenize (text : List Char) : Option (List Token) :=
  (text.foldlM next ([], .between)).bind State.finish

/-! ### Statements -/

def bytesOf (chars : List Char) : List UInt8 :=
  chars.map fun c => UInt8.ofNat c.toNat

def hexPairs : List Char → Option (List UInt8)
  | [] => some []
  | [_] => none
  | high :: low :: rest => do
      let high ← hexValue high
      let low ← hexValue low
      let rest ← hexPairs rest
      return UInt8.ofNat (16 * high + low) :: rest

/-- An odd number of digits is read with a zero in front. -/
def readHex : List Char → Option (List UInt8)
  | '0' :: 'x' :: digit :: digits =>
    hexPairs (if digits.length % 2 = 0 then '0' :: digit :: digits else digit :: digits)
  | _ => none

/-- A value: NULL or bytes. -/
abbrev Cell := Option (List UInt8)

def isKeyword (keyword : String) (chars : List Char) : Bool :=
  chars.map upperChar = keyword.toList

def readCell : Token → Option Cell
  | .text chars => some (some (bytesOf chars))
  | .word chars => if isKeyword "NULL" chars then some none else (readHex chars).map some
  | _ => none

/-- The names up to the closing parenthesis, and what follows. -/
def readNames : List Token → Option (List (List UInt8) × List Token)
  | .name chars :: .symbol ',' :: rest => do
      let (names, rest) ← readNames rest
      return (bytesOf chars :: names, rest)
  | .name chars :: .symbol ')' :: rest => some ([bytesOf chars], rest)
  | _ => none

/-- The rows behind an opening parenthesis; `row` has been read of the first. -/
def readRows (row : List Cell) : List Token → Option (List (List Cell))
  | token :: .symbol ',' :: rest => do
      let cell ← readCell token
      readRows (row ++ [cell]) rest
  | [token, .symbol ')'] => do
      let cell ← readCell token
      return [row ++ [cell]]
  | token :: .symbol ')' :: .symbol ',' :: .symbol '(' :: rest => do
      let cell ← readCell token
      let rows ← readRows [] rest
      return (row ++ [cell]) :: rows
  | _ => none

structure Insert where
  table : List UInt8
  columns : List (List UInt8)
  rows : List (List Cell)
deriving DecidableEq

def readTokens : List Token → Option Insert
  | .word insert :: .word into :: .name table :: .symbol '(' :: rest =>
    if isKeyword "INSERT" insert && isKeyword "INTO" into then
      match readNames rest with
      | some (columns, .word values :: .symbol '(' :: rest) =>
        if isKeyword "VALUES" values then
          (readRows [] rest).map fun rows => ⟨bytesOf table, columns, rows⟩
        else none
      | _ => none
    else none
  | _ => none

def readInsert (text : List Char) : Option Insert :=
  (tokenize text).bind readTokens

/-- A literal that stands alone. -/
def readLiteral (text : List Char) : Option Cell :=
  match tokenize text with
  | some [token] => readCell token
  | _ => none

/-! ### Reading pieces of text -/

/-- The text is read as the tokens, from between two tokens to between two tokens. -/
def Reads (text : List Char) (tokens : List Token) : Prop :=
  ∀ before, text.foldlM next (before, .between) = some (before ++ tokens, .between)

theorem Reads.append {first second : List Char} {firstTokens secondTokens : List Token}
    (readsFirst : Reads first firstTokens) (readsSecond : Reads second secondTokens) :
    Reads (first ++ second) (firstTokens ++ secondTokens) := by
  intro before
  rw [List.foldlM_append, readsFirst before]
  change second.foldlM next (before ++ firstTokens, .between) = _
  rw [readsSecond, List.append_assoc]

/-- A character that ends a token: a blank or a symbol. -/
def Closes (c : Char) (tokens : List Token) : Prop :=
  isWordChar c = false ∧ c ≠ '`' ∧ c ≠ '\'' ∧
    ∀ before, start before c = some (before ++ tokens, .between)

theorem closes_space : Closes ' ' [] :=
  ⟨rfl, by decide, by decide, fun before => by rw [List.append_nil]; rfl⟩

theorem closes_newline : Closes '\n' [] :=
  ⟨rfl, by decide, by decide, fun before => by rw [List.append_nil]; rfl⟩

theorem closes_comma : Closes ',' [.symbol ','] :=
  ⟨rfl, by decide, by decide, fun _ => rfl⟩

theorem closes_close : Closes ')' [.symbol ')'] :=
  ⟨rfl, by decide, by decide, fun _ => rfl⟩

theorem Closes.reads {c : Char} {tokens : List Token} (closes : Closes c tokens) :
    Reads [c] tokens := by
  intro before
  change (start before c >>= pure) = _
  rw [closes.2.2.2, bind_pure]

theorem reads_open : Reads ['('] [.symbol '('] := fun _ => rfl

/-- The text is one token, whatever ends it. -/
def Whole (text : List Char) (token : Token) : Prop :=
  ∀ c tokens, Closes c tokens → Reads (text ++ [c]) (token :: tokens)

theorem finish_of_space {state : State} {tokens : List Token}
    (closed : next state ' ' = some (tokens, .between)) : state.finish = some tokens := by
  obtain ⟨before, scan⟩ := state
  have blank : ∀ done, start done ' ' = some (done, .between) := fun _ => rfl
  have notWord : ¬ isWordChar ' ' = true := by decide
  cases scan with
  | between =>
    rw [next, blank] at closed
    exact congrArg some (Prod.mk.inj (Option.some.inj closed)).1
  | word chars =>
    rw [next, if_neg notWord, blank] at closed
    exact congrArg some (Prod.mk.inj (Option.some.inj closed)).1
  | nameQuote chars =>
    rw [next, if_neg (by decide), blank] at closed
    exact congrArg some (Prod.mk.inj (Option.some.inj closed)).1
  | textQuote chars =>
    rw [next, if_neg (by decide), blank] at closed
    exact congrArg some (Prod.mk.inj (Option.some.inj closed)).1
  | name chars => exact nomatch (Prod.mk.inj (Option.some.inj closed)).2
  | text chars => exact nomatch (Prod.mk.inj (Option.some.inj closed)).2
  | textEscape chars => exact nomatch (Prod.mk.inj (Option.some.inj closed)).2

theorem readLiteral_of_whole {text : List Char} {token : Token} (whole : Whole text token) :
    readLiteral text = readCell token := by
  have read := whole ' ' [] closes_space []
  rw [List.foldlM_append] at read
  obtain ⟨state, scanned, closed⟩ := Option.bind_eq_some_iff.mp read
  obtain ⟨last, step, isLast⟩ := Option.bind_eq_some_iff.mp closed
  rw [Option.some.inj isLast] at step
  have alone : tokenize text = some [token] := by
    rw [tokenize, scanned]
    exact finish_of_space step
  rw [readLiteral, alone]

theorem foldlM_word (rest : List Char) (wordChars : ∀ c ∈ rest, isWordChar c = true) :
    ∀ (before : List Token) (chars : List Char),
      rest.foldlM next (before, .word chars) = some (before, .word (chars ++ rest)) := by
  induction rest with
  | nil =>
    intro before chars
    rw [List.append_nil]
    rfl
  | cons c rest ih =>
    intro before chars
    obtain ⟨isWord, restWord⟩ := List.forall_mem_cons.mp wordChars
    rw [List.foldlM_cons, next, if_pos isWord]
    change rest.foldlM next (before, .word (chars ++ [c])) = _
    rw [ih restWord, List.append_assoc, List.singleton_append]

theorem whole_word {first : Char} {rest : List Char} (isAlphanum : first.isAlphanum = true)
    (wordChars : ∀ c ∈ rest, isWordChar c = true) :
    Whole (first :: rest) (.word (first :: rest)) := by
  intro c tokens closes before
  have notMark : ∀ mark : Char, mark.isAlphanum = false → first ≠ mark := by
    rintro mark notAlphanum rfl
    rw [isAlphanum] at notAlphanum
    exact Bool.noConfusion notAlphanum
  have isWord : isWordChar first = true := by
    rw [isWordChar, isAlphanum]
    rfl
  have notBlank : ¬ (first = ' ' ∨ first = '\t' ∨ first = '\n' ∨ first = '\r') := by
    rintro (isSpace | isTab | isNewline | isReturn)
    · exact notMark ' ' rfl isSpace
    · exact notMark '\t' rfl isTab
    · exact notMark '\n' rfl isNewline
    · exact notMark '\r' rfl isReturn
  have opened : start before first = some (before, .word [first]) := by
    rw [start, if_neg notBlank, if_neg (notMark '`' rfl), if_neg (notMark '\'' rfl),
      if_pos isWord]
  rw [List.cons_append, List.foldlM_cons, next, opened]
  change (rest ++ [c]).foldlM next (before, .word [first]) = _
  rw [List.foldlM_append, foldlM_word rest wordChars]
  change (next (before, .word ([first] ++ rest)) c >>= pure) = _
  rw [bind_pure, next, if_neg (by rw [closes.1]; decide), closes.2.2.2, List.append_assoc]
  rfl

/-- A name with its backticks written twice. -/
def doubled (chars : List Char) : List Char :=
  chars.flatMap fun c => if c = '`' then ['`', '`'] else [c]

theorem foldlM_doubled (rest : List Char) :
    ∀ (before : List Token) (chars : List Char),
      (doubled rest).foldlM next (before, .name chars) = some (before, .name (chars ++ rest)) := by
  induction rest with
  | nil =>
    intro before chars
    rw [List.append_nil]
    rfl
  | cons c rest ih =>
    intro before chars
    have one : (if c = '`' then ['`', '`'] else [c]).foldlM next (before, .name chars) =
        some (before, .name (chars ++ [c])) := by
      by_cases isQuote : c = '`'
      · rw [if_pos isQuote, isQuote]
        rfl
      · rw [if_neg isQuote, List.foldlM_cons, next, if_neg isQuote]
        rfl
    rw [doubled, List.flatMap_cons, List.foldlM_append, one]
    change (doubled rest).foldlM next (before, .name (chars ++ [c])) = _
    rw [ih, List.append_assoc, List.singleton_append]

theorem whole_name (chars : List Char) :
    Whole ('`' :: doubled chars ++ ['`']) (.name chars) := by
  intro c tokens closes before
  have opened : next (before, .between) '`' = some (before, .name []) := rfl
  rw [List.append_assoc, List.cons_append, List.foldlM_cons, opened]
  change (doubled chars ++ ['`', c]).foldlM next (before, .name []) = _
  rw [List.foldlM_append, foldlM_doubled]
  change (next (before, .nameQuote ([] ++ chars)) c >>= pure) = _
  rw [bind_pure, next, if_neg closes.2.1, closes.2.2.2, List.append_assoc]
  rfl

/-- `escape` writes each character of a string so that it is read as that character. -/
def Escapes (escape : Char → List Char) : Prop :=
  ∀ c before chars, (escape c).foldlM next (before, .text chars) =
    some (before, .text (chars ++ [c]))

theorem foldlM_escaped {escape : Char → List Char} (escapes : Escapes escape)
    (rest : List Char) :
    ∀ (before : List Token) (chars : List Char),
      (rest.flatMap escape).foldlM next (before, .text chars) =
        some (before, .text (chars ++ rest)) := by
  induction rest with
  | nil =>
    intro before chars
    rw [List.append_nil]
    rfl
  | cons c rest ih =>
    intro before chars
    rw [List.flatMap_cons, List.foldlM_append, escapes]
    change (rest.flatMap escape).foldlM next (before, .text (chars ++ [c])) = _
    rw [ih, List.append_assoc, List.singleton_append]

theorem whole_text {escape : Char → List Char} (escapes : Escapes escape) (chars : List Char) :
    Whole ('\'' :: chars.flatMap escape ++ ['\'']) (.text chars) := by
  intro c tokens closes before
  have opened : next (before, .between) '\'' = some (before, .text []) := rfl
  rw [List.append_assoc, List.cons_append, List.foldlM_cons, opened]
  change (chars.flatMap escape ++ ['\'', c]).foldlM next (before, .text []) = _
  rw [List.foldlM_append, foldlM_escaped escapes]
  change (next (before, .textQuote ([] ++ chars)) c >>= pure) = _
  rw [bind_pure, next, if_neg closes.2.2.1, closes.2.2.2, List.append_assoc]
  rfl

/-! ### Lists -/

/-- Tokens with commas between them and a closing parenthesis behind. -/
def listTokens : List Token → List Token
  | [] => [.symbol ')']
  | [token] => [token, .symbol ')']
  | token :: rest => token :: .symbol ',' :: listTokens rest

theorem listTokens_cons_cons (first second : Token) (rest : List Token) :
    listTokens (first :: second :: rest) =
      first :: .symbol ',' :: listTokens (second :: rest) := rfl

theorem reads_list (parts : List (List Char × Token)) (nonempty : parts ≠ [])
    (whole : ∀ part ∈ parts, Whole part.1 part.2) :
    Reads ([',', ' '].intercalate (parts.map Prod.fst) ++ [')'])
      (listTokens (parts.map Prod.snd)) := by
  induction parts with
  | nil => exact absurd rfl nonempty
  | cons part rest ih =>
    have one := whole part List.mem_cons_self
    cases rest with
    | nil => simpa [List.intercalate, listTokens] using one ')' _ closes_close
    | cons second others =>
      have tail := ih (List.cons_ne_nil _ _)
        (List.forall_mem_cons.mp whole).2
      have head := (one ',' _ closes_comma).append closes_space.reads
      have both := head.append tail
      rw [List.map_cons, List.map_cons, List.intercalate_cons_cons, List.map_cons,
        List.map_cons, listTokens_cons_cons]
      simpa using both

theorem readNames_list (names : List (List Char)) (nonempty : names ≠ []) (rest : List Token) :
    readNames (listTokens (names.map .name) ++ rest) = some (names.map bytesOf, rest) := by
  induction names with
  | nil => exact absurd rfl nonempty
  | cons name others ih =>
    cases others with
    | nil => rfl
    | cons second more =>
      have tail := ih (List.cons_ne_nil _ _)
      rw [List.map_cons] at tail
      rw [List.map_cons, List.map_cons, listTokens_cons_cons, List.cons_append,
        List.cons_append, readNames, tail]
      rfl

/-- Each token is read as its cell. -/
def ReadsCells (entries : List (Token × Cell)) : Prop :=
  ∀ entry ∈ entries, readCell entry.1 = some entry.2

theorem readRows_last (entries : List (Token × Cell)) (nonempty : entries ≠ [])
    (reads : ReadsCells entries) :
    ∀ done, readRows done (listTokens (entries.map Prod.fst)) =
      some [done ++ entries.map Prod.snd] := by
  induction entries with
  | nil => exact absurd rfl nonempty
  | cons entry others ih =>
    intro done
    have own := reads entry List.mem_cons_self
    cases others with
    | nil =>
      change (readCell entry.1).bind (fun cell => some [done ++ [cell]]) = _
      rw [own]
      rfl
    | cons second more =>
      have tail := ih (List.cons_ne_nil _ _)
        (List.forall_mem_cons.mp reads).2 (done ++ [entry.2])
      rw [List.map_cons] at tail
      rw [List.map_cons, List.map_cons, listTokens_cons_cons, readRows, own]
      change readRows (done ++ [entry.2]) _ = _
      rw [tail, List.append_assoc]
      rfl

theorem readRows_next (entries : List (Token × Cell)) (nonempty : entries ≠ [])
    (reads : ReadsCells entries) (rest : List Token) :
    ∀ done, readRows done
        (listTokens (entries.map Prod.fst) ++ .symbol ',' :: .symbol '(' :: rest) =
      (readRows [] rest).map ((done ++ entries.map Prod.snd) :: ·) := by
  induction entries with
  | nil => exact absurd rfl nonempty
  | cons entry others ih =>
    intro done
    have own := reads entry List.mem_cons_self
    cases others with
    | nil =>
      change (readCell entry.1).bind (fun cell =>
        (readRows [] rest).bind fun rows => some ((done ++ [cell]) :: rows)) = _
      rw [own]
      cases readRows [] rest with
      | none => rfl
      | some rows => rfl
    | cons second more =>
      have tail := ih (List.cons_ne_nil _ _)
        (List.forall_mem_cons.mp reads).2 (done ++ [entry.2])
      rw [List.map_cons] at tail
      rw [List.map_cons, List.map_cons, listTokens_cons_cons, List.cons_append,
        List.cons_append, readRows, own]
      change readRows (done ++ [entry.2]) _ = _
      rw [tail, List.append_assoc]
      rfl

/-- The rows behind the first opening parenthesis. -/
def rowsTokens : List (List Token) → List Token
  | [] => []
  | [row] => listTokens row
  | row :: rest => listTokens row ++ .symbol ',' :: .symbol '(' :: rowsTokens rest

theorem readRows_rowsTokens (rows : List (List (Token × Cell))) (nonempty : rows ≠ [])
    (reads : ∀ row ∈ rows, row ≠ [] ∧ ReadsCells row) :
    readRows [] (rowsTokens (rows.map (List.map Prod.fst))) =
      some (rows.map (List.map Prod.snd)) := by
  induction rows with
  | nil => exact absurd rfl nonempty
  | cons row others ih =>
    obtain ⟨rowNonempty, rowReads⟩ := reads row List.mem_cons_self
    cases others with
    | nil => exact readRows_last row rowNonempty rowReads []
    | cons second more =>
      have tail := ih (List.cons_ne_nil _ _)
        (List.forall_mem_cons.mp reads).2
      have head := readRows_next row rowNonempty rowReads
        (rowsTokens ((second :: more).map (List.map Prod.fst))) []
      rw [tail] at head
      exact head

theorem reads_rows (rows : List (List (List Char × Token))) (nonempty : rows ≠ [])
    (whole : ∀ row ∈ rows, row ≠ [] ∧ ∀ part ∈ row, Whole part.1 part.2) :
    Reads ([',', '\n'].intercalate (rows.map fun row =>
        '(' :: [',', ' '].intercalate (row.map Prod.fst) ++ [')']))
      (.symbol '(' :: rowsTokens (rows.map (List.map Prod.snd))) := by
  induction rows with
  | nil => exact absurd rfl nonempty
  | cons row others ih =>
    obtain ⟨rowNonempty, rowWhole⟩ := whole row List.mem_cons_self
    have own := reads_open.append (reads_list row rowNonempty rowWhole)
    cases others with
    | nil => simpa [List.intercalate, rowsTokens] using own
    | cons second more =>
      have tail := ih (List.cons_ne_nil _ _)
        (List.forall_mem_cons.mp whole).2
      have separator := closes_comma.reads.append closes_newline.reads
      have joined := own.append (separator.append tail)
      rw [List.map_cons, List.map_cons, List.intercalate_cons_cons]
      simpa [rowsTokens] using joined

end DbBackup.Engine.Mysql.InsertText
