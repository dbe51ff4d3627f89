import DbBackup.Lib.GoString

/-!
Owns the reading of logical decoding lines in
`supported/database/engine/postgres/incremental.go`: the field scanner, the
statement `pgChangeToSQL` makes of one line, and the loop of `pgChanges`.

`pgPK` asks the catalogue once per table and keeps the answer, so the primary
keys are a function of the table as it is written in the line; a query that
fails is a table without a key.

Does not own the slot and the query that yields the lines.
-/

namespace DbBackup.Engine.Postgres.Changes

open Lib.GoString

/-! ### Fields -/

def isLetter (c : Char) : Bool := ('a' ≤ c && c ≤ 'z') || ('A' ≤ c && c ≤ 'Z')

def isIdentChar (c : Char) : Bool := c = '_' || isLetter c || ('0' ≤ c && c ≤ '9')

/-- The loop of `nextFieldAt`: identifier characters up to a bracket. -/
def reachesBracket : List Char → Bool
  | [] => false
  | c :: rest => if c = '[' then true else if isIdentChar c then reachesBracket rest else false

def nextFieldAt : List Char → Bool
  | [] => false
  | c :: rest => isLetter c && reachesBracket rest

/-- Where the scan of a value stands: `doubled` is at the second of two quotes. -/
inductive ScanMode where
  | outside
  | inside
  | doubled
deriving DecidableEq

/-- The value up to the next field, and what follows it. -/
def scanValue : ScanMode → List Char → List Char × List Char
  | _, [] => ([], [])
  | .outside, c :: rest =>
    if c = '\'' then
      let (value, after) := scanValue .inside rest
      (c :: value, after)
    else if c = ' ' && nextFieldAt rest then ([], c :: rest)
    else
      let (value, after) := scanValue .outside rest
      (c :: value, after)
  | .inside, c :: rest =>
    let next := if c ≠ '\'' then ScanMode.inside
      else if rest.head? = some '\'' then .doubled else .outside
    let (value, after) := scanValue next rest
    (c :: value, after)
  | .doubled, c :: rest =>
    let (value, after) := scanValue .inside rest
    (c :: value, after)

/-- One round of the loop of `parsePGFields`: the field, and the text after it. -/
def readField (text : List Char) : Option ((String × String) × List Char) :=
  let text := text.dropWhile (· = ' ')
  let name := text.takeWhile (· ≠ '[')
  match (text.dropWhile (· ≠ '[')).dropWhile (· ≠ ']') with
  | [] => none
  | _ :: afterType =>
    let (value, after) := scanValue .outside
      (if afterType.head? = some ':' then afterType.tail else afterType)
    some ((String.ofList name, String.ofList value), after)

/-- Each round takes at least a bracket, so `fuel` may be the length of the text. -/
def readFields : Nat → List Char → List (String × String)
  | 0, _ => []
  | fuel + 1, text =>
    match readField text with
    | none => []
    | some (field, after) => field :: readFields fuel after

/-- The names and the values; types are passed over. -/
def parsePGFields (text : String) : List String × List String :=
  let fields := readFields (text.toList.length + 1) text.toList
  (fields.map Prod.fst, fields.map Prod.snd)

/-! ### Statements -/

def escapePGIdent (s : String) : String := "\"" ++ replaceAll s "\"" "\"\"" ++ "\""

def escapeQualifiedPGIdent (qualified : String) : String :=
  ".".intercalate ((qualified.toList.splitOn '.').map fun part => escapePGIdent (String.ofList part))

/-- A statement with its identifiers quoted and its values as they were read. -/
inductive Statement where
  | insert (table : String) (columns values : List String)
  | update (table : String) (sets conds : List (String × String))
  | delete (table : String) (conds : List (String × String))
deriving DecidableEq

def equals (pair : String × String) : String := pair.1 ++ " = " ++ pair.2

def Statement.text : Statement → String
  | .insert table columns values =>
    "INSERT INTO " ++ table ++ " (" ++ ", ".intercalate columns ++ ") VALUES (" ++
      ", ".intercalate values ++ ");"
  | .update table sets conds =>
    "UPDATE " ++ table ++ " SET " ++ ", ".intercalate (sets.map equals) ++ " WHERE " ++
      " AND ".intercalate (conds.map equals) ++ ";"
  | .delete table conds =>
    "DELETE FROM " ++ table ++ " WHERE " ++ " AND ".intercalate (conds.map equals) ++ ";"

/-- `strings.Cut` at a colon and a space. -/
def cutColon (text : List Char) : Option (List Char × List Char) :=
  (indexOf [':', ' '] text).map fun idx => (text.take idx, text.drop (idx + 2))

def quotedPairs (fields : List (String × String)) : List (String × String) :=
  fields.map fun field => (escapePGIdent field.1, field.2)

/-- What `pgChangeToSQL` writes for a table, an operation and its fields. -/
def fieldStatement (primaryKey : List String) (table op : String)
    (fields : List (String × String)) : Option Statement :=
  let qtable := escapeQualifiedPGIdent table
  if fields = [] then none
  else if op = "INSERT" then
    some (.insert qtable ((quotedPairs fields).map Prod.fst) (fields.map Prod.snd))
  else if op = "UPDATE" then
    let conds := quotedPairs (fields.filter fun field => primaryKey.contains field.1)
    let sets := quotedPairs (fields.filter fun field => !primaryKey.contains field.1)
    if conds = [] then none else some (.update qtable sets conds)
  else if op = "DELETE" then some (.delete qtable (quotedPairs fields))
  else none

/-- The statement of a line, if it has one; `SplitN` cuts at the first two
colons that a space follows. -/
def changeStatement (primaryKey : String → List String) (data : String) : Option Statement :=
  if hasPrefix data "table " then
    match cutColon (trimPrefix data "table ").toList with
    | none => none
    | some (table, rest) =>
      match cutColon rest with
      | none => none
      | some (op, columns) =>
        let (names, values) := parsePGFields (String.ofList columns)
        fieldStatement (primaryKey (String.ofList table)) (String.ofList table)
          (String.ofList op) (names.zip values)
  else none

def pgChangeToSQL (primaryKey : String → List String) (data : String) : Option String :=
  (changeStatement primaryKey data).map Statement.text

/-- What `pgChanges` writes, a line each, and the number it returns. A line
without a statement is passed over. -/
def pgChanges (primaryKey : String → List String) (lines : List String) : List String × Nat :=
  let written := lines.filterMap (pgChangeToSQL primaryKey)
  (written, written.length)

/-! ### One round of the scanner -/

theorem readFields_succ (fuel : Nat) (text : List Char) :
    readFields (fuel + 1) text =
      match readField text with
      | none => []
      | some (field, after) => field :: readFields fuel after := rfl

theorem parsePGFields_zip (text : String) :
    (parsePGFields text).1.zip (parsePGFields text).2 =
      readFields (text.toList.length + 1) text.toList := by
  unfold parsePGFields
  dsimp only
  exact (List.zip_of_prod rfl rfl).symm

end DbBackup.Engine.Postgres.Changes
