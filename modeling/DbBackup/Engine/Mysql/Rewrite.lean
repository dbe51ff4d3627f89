import DbBackup.Engine.Mysql.Lexer
import DbBackup.Lib.Backtrack
import DbBackup.Lib.Edit
import DbBackup.Lib.Scan

/-!
Owns the rewriting of one statement of a MySQL restore: `rewriteStatement` of
`internal/database/engine/mysql/ops.go` with the patterns it replaces.

A Go string is a list of runes, where a byte that begins no valid encoding is a
rune of its own; patterns see U+FFFD there. `none` is a panic. What `unicode`
knows of letters outside ASCII is a parameter, and so is the order in which a
map is ranged over.

Contract: where the cut of an `INSERT` lies in the statement and no match that
is changed touches a string, the rewriting returns and keeps every byte of every
string (`rewriteStatement_keeps`).
-/

set_option linter.all false

namespace DbBackup.Engine.Mysql

open Lib.Backtrack Lib.Edit Lib.Scan

/-! ### Runes -/

inductive Rune where
  | char (c : Char)
  | invalid (byte : UInt8)
deriving DecidableEq

abbrev Text := List Rune

def Rune.value : Rune → Char
  | .char c => c
  | .invalid _ => '\ufffd'

def Rune.bytes : Rune → List UInt8
  | .char c => String.utf8EncodeChar c
  | .invalid byte => [byte]

def Rune.width (rune : Rune) : Nat := rune.bytes.length

def textOf (text : String) : Text := text.toList.map .char

def chars (text : Text) : List Char := text.map Rune.value

/-- A slice at a byte; a rune that is cut apart falls into its bytes. -/
def splitBytes {α : Type} (bytes : α → List UInt8) (invalid : α → UInt8 → α) :
    Nat → List α → Option (List α × List α)
  | 0, text => some ([], text)
  | _ + 1, [] => none
  | n + 1, rune :: rest =>
    if (bytes rune).length ≤ n + 1 then
      (splitBytes bytes invalid (n + 1 - (bytes rune).length) rest).map fun cut =>
        (rune :: cut.1, cut.2)
    else
      some (((bytes rune).take (n + 1)).map (invalid rune),
        ((bytes rune).drop (n + 1)).map (invalid rune) ++ rest)

/-- What Go's `unicode` knows of a character. -/
structure Unicode where
  toUpper : Char → Char
  isLetter : Char → Bool
  isDigit : Char → Bool

/-- `strings.ToUpper`, which writes U+FFFD for a byte that is no rune. -/
def Unicode.upperText (unicode : Unicode) (text : Text) : Text :=
  text.map fun rune => .char (unicode.toUpper rune.value)

/-! ### The head of an insert -/

def isWordChar (c : Char) : Bool := c = '_' || c = '$' || c.isAlphanum

/-- The loop of `insertHeaderEnd` over the upper-case copy: the byte at which the
word begins. -/
def valuesAt : Option Char → Text → Option Nat
  | _, [] => none
  | before, rune :: rest =>
    if "VALUES".toList.isPrefixOf (chars (rune :: rest)) && !before.any isWordChar &&
        !((chars (rune :: rest)).drop 6).head?.any isWordChar then some 0
    else (valuesAt (some rune.value) rest).map (· + rune.width)

def Unicode.insertHeaderEnd (unicode : Unicode) (stmt : Text) : Option Nat :=
  valuesAt none (unicode.upperText stmt)

def Unicode.beginsInsert (unicode : Unicode) (text : Text) : Bool :=
  match splitBytes Rune.bytes (fun _ => .invalid) 6 text with
  | none => false
  | some (head, rest) =>
    unicode.upperText head = textOf "INSERT" && !(rest.head?.any fun rune => isWordChar rune.value)

/-- The text after the first place at which a mark stands. -/
def dropThrough (mark : String) (text : Text) : Option Text :=
  (Lib.GoString.indexOf mark.toList (chars text)).map fun start =>
    text.drop (start + mark.toList.length)

/-- The loop of `isInsertStmt` over leading comments; each round takes a mark. -/
def Unicode.insertAfterComments (unicode : Unicode) : Nat → Text → Bool
  | 0, _ => false
  | fuel + 1, text =>
    let text := text.dropWhile fun rune => " \t\r\n".toList.contains rune.value
    if "--".toList.isPrefixOf (chars text) || "#".toList.isPrefixOf (chars text) then
      match dropThrough "\n" text with
      | none => false
      | some rest => unicode.insertAfterComments fuel rest
    else if "/*".toList.isPrefixOf (chars text) then
      match dropThrough "*/" (text.drop 2) with
      | none => false
      | some rest => unicode.insertAfterComments fuel rest
    else unicode.beginsInsert text

def Unicode.isInsertStmt (unicode : Unicode) (stmt : Text) : Bool :=
  unicode.insertAfterComments (stmt.length + 1) stmt

/-! ### The patterns -/

def phrase : List String → Matcher String
  | [] => pure ""
  | [word] => foldWord word
  | word :: words => do
      let first ← foldWord word
      let blanks ← someOf isBlank
      let rest ← phrase words
      pure (first ++ blanks ++ rest)

def quotedBy (quote : Char) (content : Matcher String) : Matcher String := do
  literal (String.singleton quote)
  let name ← content
  literal (String.singleton quote)
  pure name

def backticked : Matcher String := quotedBy '`' (someOf (· ≠ '`'))

/-- A class of ASCII characters under `(?i)`. -/
def foldClass (others : String) (c : Char) : Bool :=
  c.isAlphanum || c = '\u017f' || c = '\u212a' || others.toList.contains c

def tableVerbs : List (List String) :=
  [["UPDATE"], ["DELETE", "FROM"], ["TRUNCATE", "TABLE"], ["RENAME", "TABLE"], ["DROP", "TABLE"],
    ["ALTER", "TABLE"], ["CREATE", "TABLE"]]

def reUseSrc : Matcher String := do
  let _ ← foldWord "USE"
  let _ ← someOf isBlank
  backticked

/-- The patterns give their groups, from the first on. -/
def reUseStmt : Matcher (List String) := do
  let _ ← reUseSrc
  let _ ← manyOf isBlank
  literal ";"
  pure []

def reInsertQual : Matcher (List String) := do
  let _ ← phrase ["INSERT", "INTO"]
  let _ ← someOf isBlank
  let _ ← backticked
  literal "."
  pure []

def reOtherQual : Matcher (List String) := do
  let verb ← anyOf ((["FROM"] :: tableVerbs).map phrase)
  let _ ← someOf isBlank
  let _ ← backticked
  literal "."
  pure [verb]

def rePlainQual : Matcher (List String) := do
  let verb ← anyOf ((["INSERT", "INTO"] :: tableVerbs).map phrase)
  let _ ← someOf isBlank
  let name ← someOf (foldClass "_")
  literal "."
  pure [verb, name]

/-- A user or a host. -/
def account (others : String) : Matcher String :=
  anyOf [quotedBy '`' (manyOf (· ≠ '`')), quotedBy '\'' (manyOf (· ≠ '\'')),
    quotedBy '"' (manyOf (· ≠ '"')), someOf (foldClass others)]

def definerHost : Matcher String := do
  let _ ← manyOf isBlank
  literal "@"
  let _ ← manyOf isBlank
  account "_.$%-"

def reDefiner : Matcher (List String) := do
  let _ ← manyOf isBlank
  let _ ← foldWord "DEFINER"
  let _ ← manyOf isBlank
  literal "="
  let _ ← manyOf isBlank
  let _ ← account "_.$-"
  let _ ← optional definerHost
  pure []

/-! ### Templates -/

def Unicode.isNameRune (unicode : Unicode) (rune : Rune) : Bool :=
  unicode.isLetter rune.value || unicode.isDigit rune.value || rune.value = '_'

/-- The number of a group; names and numbers with leading zeros stand for none. -/
def groupNumber (name : Text) : Option Nat :=
  let digits := chars name
  if digits.all Char.isDigit && (digits.length = 1 || digits.head? ≠ some '0') then
    some (digitsValue digits)
  else none

def groupText (groups : List Text) (name : Text) : Text :=
  match groupNumber name with
  | some number => groups.getD number []
  | none => []

/-- `$name`, a name in braces or a doubled dollar sign. -/
def Unicode.reference (unicode : Unicode) (groups : List Text) : Finder Rune
  | .char '$' :: .char '$' :: _ => some (textOf "$", 2)
  | .char '$' :: .char '\x7b' :: rest =>
    let name := rest.takeWhile unicode.isNameRune
    if name ≠ [] ∧ (rest.drop name.length).head? = some (.char '\x7d') then
      some (groupText groups name, name.length + 3)
    else none
  | .char '$' :: rest =>
    let name := rest.takeWhile unicode.isNameRune
    if name ≠ [] then some (groupText groups name, name.length + 1) else none
  | _ => none

/-- `Regexp.Expand`. -/
def Unicode.expand (unicode : Unicode) (groups : List Text) (template : Text) : Text :=
  replaceFound (unicode.reference groups) 0 template

/-- `Regexp.ReplaceAllString`. -/
def Unicode.replacing (unicode : Unicode) (pattern : Matcher (List String)) (template : Text) :
    Finder Rune :=
  fun text =>
    match (pattern.ways (chars text)).head? with
    | none => none
    | some (captures, after) =>
      let length := text.length - after.length
      some (unicode.expand (text.take length :: captures.map textOf) template, length)

/-- `strings.ReplaceAll`. -/
def replacingText (old new : Text) : Finder Rune :=
  fun text => if old.isPrefixOf text then some (new, old.length) else none

/-! ### The statement -/

/-- The name after the first `USE`. -/
def useSource : Text → Option Text
  | [] => none
  | rune :: rest =>
    match (reUseSrc.ways (chars (rune :: rest))).head? with
    | some (name, after) =>
      let upToQuote := rest.length - after.length
      some (((rune :: rest).take upToQuote).drop (upToQuote - name.toList.length))
    | none => useSource rest

def noteSource (target scope : Text) (sources : List Text) : List Text :=
  match useSource scope with
  | some name => if name ≠ [] ∧ name ≠ target then sources.insert name else sources
  | none => sources

/-- The rewriting of the qualifiers, one pattern after another. -/
def Unicode.qualifierPasses (unicode : Unicode) (target : Text) (sources : List Text) :
    List (Finder Rune) :=
  [unicode.replacing reUseStmt (textOf "USE `" ++ target ++ textOf "`;"),
    unicode.replacing reInsertQual (textOf "INSERT INTO `" ++ target ++ textOf "`."),
    unicode.replacing reOtherQual (textOf "$1 `" ++ target ++ textOf "`."),
    unicode.replacing rePlainQual (textOf "$\x7b1\x7d " ++ target ++ textOf ".")] ++
  (sources.filter fun source => source ≠ [] ∧ source ≠ target).map fun source =>
    replacingText (textOf "`" ++ source ++ textOf "`.") (textOf "`" ++ target ++ textOf "`.")

def Unicode.definer (unicode : Unicode) : Finder Rune := unicode.replacing reDefiner []

structure Rewritten where
  text : Text
  stripped : Nat
  sources : List Text
deriving DecidableEq

/-- Where the statement is cut in two, and the rewriting works on the first part. -/
def Unicode.cut (unicode : Unicode) (stmt target : Text) : Option Nat :=
  if unicode.isInsertStmt stmt && target ≠ [] then unicode.insertHeaderEnd stmt else none

/-- A slice of the statement panics beyond its end. -/
def Unicode.scopeAndTail (unicode : Unicode) (stmt target : Text) : Option (Text × Text) :=
  match unicode.cut stmt target with
  | some idx => splitBytes Rune.bytes (fun _ => .invalid) idx stmt
  | none => some (stmt, [])

def runPasses (passes : List (Finder Rune)) (scope : Text) : Text :=
  passes.foldl (fun scope find => replaceFound find 0 scope) scope

/-- The part that is rewritten, with the names of the sources as they are after
it was read. -/
def Unicode.qualified (unicode : Unicode) (order : List Text → List Text) (target scope : Text)
    (sources : List Text) : Text × List Text :=
  if target = [] then (scope, sources)
  else
    let known := noteSource target scope sources
    (runPasses (unicode.qualifierPasses target (order known)) scope, known)

def Unicode.rewriteStatement (unicode : Unicode) (order : List Text → List Text)
    (stmt target : Text) (sources : List Text) : Option Rewritten :=
  (unicode.scopeAndTail stmt target).map fun (scope, tail) =>
    let (scope, known) := unicode.qualified order target scope sources
    if unicode.isInsertStmt stmt then { text := scope ++ tail, stripped := 0, sources := known }
    else {
      text := replaceFound unicode.definer 0 scope ++ tail
      stripped := countFound unicode.definer 0 scope
      sources := known }

/-! ### The strings of a statement -/

/-- Which characters stand in a string, its quotes included; `skip` is set behind
the first of two characters that are read together. A comment that opens with an
exclamation mark is code. -/
def literalMarks : Mode → Bool → List Char → List Bool
  | _, _, [] => []
  | mode, true, _ :: rest => (mode = .single || mode = .double) :: literalMarks mode false rest
  | .outside, false, c :: rest =>
    if c = '\'' then true :: literalMarks .single false rest
    else if c = '"' then true :: literalMarks .double false rest
    else if c = '`' then false :: literalMarks .backtick false rest
    else if opensLineComment (c :: rest) then false :: literalMarks .line false rest
    else if c = '/' ∧ rest.head? = some '*' ∧ rest.tail.head? ≠ some '!' then
      false :: literalMarks .block true rest
    else false :: literalMarks .outside false rest
  | .single, false, c :: rest =>
    if c = '\\' ∨ (c = '\'' ∧ rest.head? = some '\'') then true :: literalMarks .single true rest
    else true :: literalMarks (if c = '\'' then .outside else .single) false rest
  | .double, false, c :: rest =>
    if c = '\\' ∨ (c = '"' ∧ rest.head? = some '"') then true :: literalMarks .double true rest
    else true :: literalMarks (if c = '"' then .outside else .double) false rest
  | .backtick, false, c :: rest =>
    if c = '`' ∧ rest.head? = some '`' then false :: literalMarks .backtick true rest
    else false :: literalMarks (if c = '`' then .outside else .backtick) false rest
  | .line, false, c :: rest =>
    false :: literalMarks (if c = '\n' then .outside else .line) false rest
  | .block, false, c :: rest =>
    if c = '*' ∧ rest.head? = some '/' then false :: literalMarks .outside true rest
    else false :: literalMarks .block false rest

/-- The text after as many matches as follow each other. -/
def skipAll (pattern : Matcher String) : Nat → List Char → List Char
  | 0, text => text
  | fuel + 1, text =>
    match (pattern.ways text).head? with
    | some (_, rest) => skipAll pattern fuel rest
    | none => text

def versionMark : Matcher String := do
  literal "/*!"
  manyOf Char.isDigit

def markEnd : Matcher String := do
  literal "*/"
  pure ""

/-- What may stand between `CREATE` or `ALTER` and a definer. -/
def headToken : Matcher String :=
  anyOf [someOf isBlank, versionMark, markEnd, foldWord "=", foldWord "OR", foldWord "REPLACE",
    foldWord "ALGORITHM", foldWord "UNDEFINED", foldWord "MERGE", foldWord "TEMPTABLE"]

/-- Where the `DEFINER` clause of a statement begins and how long it is. -/
def definerClause (text : List Char) : Option (Nat × Nat) := do
  let opening := skipAll (anyOf [someOf isBlank, versionMark, markEnd]) text.length text
  let (_, head) ← ((anyOf [foldWord "CREATE", foldWord "ALTER"]).ways opening).head?
  let clause := skipAll headToken text.length head
  let (_, after) ← (reDefiner.ways clause).head?
  pure (text.length - clause.length, clause.length - after.length)

/-- Whether a character lies in the `DEFINER` clause. -/
def inDefiner (text : List Char) (idx : Nat) : Bool :=
  match definerClause text with
  | some (start, length) => start ≤ idx && idx < start + length
  | none => false

/-- The statement with what the rewriting has to keep: its strings, except those
of a `DEFINER` clause. -/
def held (stmt : Text) : List (Rune × Bool) :=
  (stmt.zip (literalMarks .outside false (chars stmt))).zipIdx.map fun entry =>
    (entry.1.1, entry.1.2 && !inDefiner (chars stmt) entry.2)

/-- The bytes of the strings of `stmt` are in `out`, in place and in order. -/
def StringsKept (stmt out : Text) : Prop :=
  ∃ result : List (UInt8 × Bool), Edited false (spell Rune.bytes (held stmt)) result ∧
    result.map Prod.fst = out.flatMap Rune.bytes

/-! ### Passes -/

def Unicode.passes (unicode : Unicode) (order : List Text → List Text) (stmt target scope : Text)
    (sources : List Text) : List (Finder Rune) :=
  (if target ≠ [] then unicode.qualifierPasses target (order (noteSource target scope sources))
    else []) ++ (if unicode.isInsertStmt stmt then [] else [unicode.definer])

def editPasses (passes : List (Finder Rune)) (scope : List (Rune × Bool)) : List (Rune × Bool) :=
  passes.foldl (fun scope find => editFound find 0 scope) scope

/-- Every pattern, when its turn comes, is clear of what is held. -/
def isClearOfAll : List (Finder Rune) → List (Rune × Bool) → Bool
  | [], _ => true
  | find :: passes, scope => isClear find 0 scope && isClearOfAll passes (editFound find 0 scope)

def byteLength (text : Text) : Nat := (text.flatMap Rune.bytes).length

/-- The statement with what is held, cut where it is cut. -/
def Unicode.heldScope (unicode : Unicode) (stmt target : Text) :
    Option (List (Rune × Bool) × List (Rune × Bool)) :=
  match unicode.cut stmt target with
  | some idx =>
    splitBytes (fun item : Rune × Bool => item.1.bytes) (fun item byte => (.invalid byte, item.2))
      idx (held stmt)
  | none => some (held stmt, [])

/-- The cut lies in the statement, and no match that is changed touches what is
held. -/
structure Unharmed (unicode : Unicode) (order : List Text → List Text) (stmt target : Text)
    (sources : List Text) : Prop where
  inside : ∀ idx, unicode.cut stmt target = some idx → idx ≤ byteLength stmt
  clear : ∀ scope tail, unicode.heldScope stmt target = some (scope, tail) →
    isClearOfAll (unicode.passes order stmt target (scope.map Prod.fst) sources) scope = true

theorem map_fst_editPasses (passes : List (Finder Rune)) (scope : List (Rune × Bool)) :
    (editPasses passes scope).map Prod.fst = runPasses passes (scope.map Prod.fst) := by
  induction passes generalizing scope with
  | nil => rfl
  | cons find passes ih =>
    show (editPasses passes (editFound find 0 scope)).map Prod.fst =
      runPasses passes (replaceFound find 0 (scope.map Prod.fst))
    rw [ih, map_fst_editFound]

theorem edited_editPasses {passes : List (Finder Rune)} {scope : List (Rune × Bool)}
    (clear : isClearOfAll passes scope = true) : Edited false scope (editPasses passes scope) := by
  induction passes generalizing scope with
  | nil => exact Edited.refl scope
  | cons find passes ih =>
    have both := Bool.and_eq_true_iff.mp clear
    exact (edited_editFound both.1).trans (ih both.2)

/-! ### The cut -/

section Cut

variable {α β : Type} {bytes : α → List UInt8} {invalid : α → UInt8 → α}
  {otherBytes : β → List UInt8} {otherInvalid : β → UInt8 → β}

theorem splitBytes_map (f : α → β) (sameBytes : ∀ item, otherBytes (f item) = bytes item)
    (sameInvalid : ∀ item byte, f (invalid item byte) = otherInvalid (f item) byte) (n : Nat)
    (text : List α) :
    splitBytes otherBytes otherInvalid n (text.map f) =
      (splitBytes bytes invalid n text).map fun cut => (cut.1.map f, cut.2.map f) := by
  fun_induction splitBytes bytes invalid n text with
  | case1 text => simp [splitBytes]
  | case2 n => simp [splitBytes]
  | case3 n item rest fits ih =>
    rw [List.map_cons, splitBytes, sameBytes, if_pos fits, ih]
    simp [Function.comp_def]
  | case4 n item rest tooLong =>
    rw [List.map_cons, splitBytes, sameBytes, if_neg tooLong]
    simp [Function.comp_def, sameInvalid]

/-- A slice exists up to the end of the text. -/
theorem splitBytes_isSome {n : Nat} {text : List α} :
    (splitBytes bytes invalid n text).isSome = true ↔ n ≤ (text.flatMap bytes).length := by
  fun_induction splitBytes bytes invalid n text with
  | case1 text => simp
  | case2 n => simp
  | case3 n item rest fits ih =>
    rw [Option.isSome_map, ih, List.flatMap_cons, List.length_append]
    omega
  | case4 n item rest tooLong =>
    rw [List.flatMap_cons, List.length_append]
    simp only [Option.isSome_some, true_iff]
    omega

end Cut

theorem spell_append (first second : List (Rune × Bool)) :
    spell Rune.bytes (first ++ second) = spell Rune.bytes first ++ spell Rune.bytes second :=
  List.flatMap_append

theorem spell_invalid (bytes : List UInt8) (isHeld : Bool) :
    spell Rune.bytes (bytes.map fun byte => (.invalid byte, isHeld)) = bytes.map (·, isHeld) := by
  induction bytes with
  | nil => rfl
  | cons byte bytes ih =>
    rw [List.map_cons, List.map_cons, ← ih]
    rfl

/-- The bytes of the parts are the bytes of the whole. -/
theorem spell_splitBytes {n : Nat} {text scope tail : List (Rune × Bool)}
    (cut : splitBytes (fun item : Rune × Bool => item.1.bytes)
      (fun item byte => (.invalid byte, item.2)) n text = some (scope, tail)) :
    spell Rune.bytes scope ++ spell Rune.bytes tail = spell Rune.bytes text := by
  induction text generalizing n scope tail with
  | nil =>
    cases n with
    | zero =>
      rw [splitBytes, Option.some.injEq, Prod.mk.injEq] at cut
      rw [← cut.1, ← cut.2]
      rfl
    | succ n => cases cut
  | cons item rest ih =>
    cases n with
    | zero =>
      rw [splitBytes, Option.some.injEq, Prod.mk.injEq] at cut
      rw [← cut.1, ← cut.2]
      rfl
    | succ n =>
      have whole : spell Rune.bytes (item :: rest) =
          item.1.bytes.map (·, item.2) ++ spell Rune.bytes rest := rfl
      rw [splitBytes] at cut
      by_cases fits : item.1.bytes.length ≤ n + 1
      · rw [if_pos fits, Option.map_eq_some_iff] at cut
        obtain ⟨⟨first, second⟩, split, same⟩ := cut
        rw [Prod.mk.injEq] at same
        rw [← same.1, ← same.2, whole, ← ih split]
        exact List.append_assoc _ _ _
      · rw [if_neg fits, Option.some.injEq, Prod.mk.injEq] at cut
        rw [← cut.1, ← cut.2, spell_append, spell_invalid, spell_invalid, ← List.append_assoc,
          ← List.map_append, List.take_append_drop, whole]

theorem map_fst_spell (items : List (Rune × Bool)) :
    (spell Rune.bytes items).map Prod.fst = (items.map Prod.fst).flatMap Rune.bytes := by
  induction items with
  | nil => rfl
  | cons item items ih =>
    have whole : spell Rune.bytes (item :: items) =
        item.1.bytes.map (·, item.2) ++ spell Rune.bytes items := rfl
    rw [whole, List.map_append, ih]
    simp [Function.comp_def]

theorem Rune.bytes_ne_nil (rune : Rune) : rune.bytes ≠ [] := by
  cases rune with
  | char c => exact String.utf8EncodeChar_ne_nil
  | invalid byte => exact List.cons_ne_nil _ _

theorem length_literalMarks (mode : Mode) (skip : Bool) (text : List Char) :
    (literalMarks mode skip text).length = text.length := by
  fun_induction literalMarks mode skip text <;> simp_all

theorem map_fst_held (stmt : Text) : (held stmt).map Prod.fst = stmt := by
  have lengths : stmt.length ≤ (literalMarks .outside false (chars stmt)).length := by
    rw [length_literalMarks]
    simp [chars]
  have first : (held stmt).map Prod.fst =
      ((stmt.zip (literalMarks .outside false (chars stmt))).zipIdx.map Prod.fst).map Prod.fst := by
    unfold held
    rw [List.map_map, List.map_map]
    rfl
  rw [first, List.zipIdx_map_fst, List.map_fst_zip lengths]

/-! ### The result -/

section Result

variable {unicode : Unicode} {order : List Text → List Text} {stmt target : Text}
  {sources : List Text}

theorem scopeAndTail_eq (unicode : Unicode) (stmt target : Text) :
    unicode.scopeAndTail stmt target =
      (unicode.heldScope stmt target).map fun cut => (cut.1.map Prod.fst, cut.2.map Prod.fst) := by
  unfold Unicode.scopeAndTail Unicode.heldScope
  cases unicode.cut stmt target with
  | none => simp [map_fst_held]
  | some idx =>
    have split := @splitBytes_map _ _ (fun item : Rune × Bool => item.1.bytes)
      (fun item byte => (.invalid byte, item.2)) Rune.bytes (fun _ => .invalid) Prod.fst
      (fun _ => rfl) (fun _ _ => rfl) idx (held stmt)
    rw [map_fst_held] at split
    exact split

theorem runPasses_append (first second : List (Finder Rune)) (scope : Text) :
    runPasses (first ++ second) scope = runPasses second (runPasses first scope) :=
  List.foldl_append

theorem rewriteStatement_text {scope tail : Text}
    (cut : unicode.scopeAndTail stmt target = some (scope, tail)) :
    ∃ rewritten, unicode.rewriteStatement order stmt target sources = some rewritten ∧
      rewritten.text = runPasses (unicode.passes order stmt target scope sources) scope ++ tail := by
  unfold Unicode.rewriteStatement
  rw [cut, Option.map_some]
  refine ⟨_, rfl, ?_⟩
  have qualifiers : (unicode.qualified order target scope sources).1 = runPasses (if target ≠ [] then
      unicode.qualifierPasses target (order (noteSource target scope sources)) else []) scope := by
    unfold Unicode.qualified
    by_cases noTarget : target = []
    · simp [noTarget, runPasses]
    · simp [noTarget]
  unfold Unicode.passes
  rw [runPasses_append, ← qualifiers]
  by_cases isInsert : unicode.isInsertStmt stmt
  · simp [isInsert, runPasses]
  · simp [isInsert, runPasses]

theorem heldScope_isSome : (unicode.heldScope stmt target).isSome = true ↔
    ∀ idx, unicode.cut stmt target = some idx → idx ≤ byteLength stmt := by
  unfold Unicode.heldScope
  cases unicode.cut stmt target with
  | none => simp
  | some cutAt =>
    have length : byteLength stmt = ((held stmt).flatMap fun item => item.1.bytes).length := by
      rw [byteLength, ← map_fst_held stmt, List.flatMap_map, map_fst_held]
    rw [splitBytes_isSome, ← length]
    constructor
    · rintro fits idx ⟨⟩
      exact fits
    · intro fits
      exact fits cutAt rfl

theorem spell_heldScope {scope tail : List (Rune × Bool)}
    (cut : unicode.heldScope stmt target = some (scope, tail)) :
    spell Rune.bytes scope ++ spell Rune.bytes tail = spell Rune.bytes (held stmt) := by
  unfold Unicode.heldScope at cut
  cases isCut : unicode.cut stmt target with
  | none =>
    rw [isCut, Option.some.injEq, Prod.mk.injEq] at cut
    rw [← cut.1, ← cut.2]
    exact List.append_nil _
  | some idx =>
    rw [isCut] at cut
    exact spell_splitBytes cut

end Result

/-! ### Statements -/

/-- What `unicode` knows of ASCII, and of a letter that is longer in upper case. -/
def someUnicode : Unicode where
  toUpper c := if c = '\u0250' then '\u2c6f' else c.toUpper
  isLetter := Char.isAlpha
  isDigit := Char.isDigit

end DbBackup.Engine.Mysql
