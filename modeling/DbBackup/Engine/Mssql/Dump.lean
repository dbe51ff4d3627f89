import DbBackup.Config.TableFilter
import DbBackup.Engine.Mssql
import DbBackup.Lib.Chunks

/-!
Owns what the SQL Server dumper writes: `dumpTable`, `dumpDefaultRows`,
`dumpConstraints`, `dumpIndexes`, `dumpViews`, `dumpTriggers`, `dumpRoutines`,
`dumpDatabase` and `Dump` of `internal/database/engine/mssql/mssql.go`.

Contract: a dump is a list of writes. The `GO` lines are writes of their own, and
so are the parts of an `INSERT`; the text of the dump is the concatenation of
their texts. `dumpRows_eq` gives the writes of a table's rows chunk by chunk.

A database is what the queries of the dumper find of it. A query that fails ends
the dump with an error and is not part of it.
-/

set_option linter.all false

namespace DbBackup.Engine.Mssql

open Config Lib.Chunks Lib.GoString Lib.LineScan

/-! ### What the server holds -/

structure ColumnFlag where
  computed : Bool := false
  definition : String := ""
  persisted : Bool := false
  identity : Bool := false
  seed : String := ""
  step : String := ""

structure Column where
  name : String
  dataType : String
  maxLen : Option Int := none
  notNull : Bool := false
  colDef : Option String := none
  flag : ColumnFlag := {}

def isPrinted (c : Char) : Bool :=
  c.isAlphanum || c = '.' || c = '+' || c = '-' || c = ':' || c = ' '

/-- A number or a time as `fmt` and `Format` print it. -/
structure Printed where
  text : String
  printed : ∀ c ∈ text.toList, isPrinted c = true
  noDashes : ¬ ['-', '-'] <:+: text.toList

/-- What `Scan` stores for a column; `text` of a `[]byte` is `string(val)`, and
`other` holds what `%v` prints. -/
inductive Value where
  | null
  | bytes (content : List UInt8) (text : String)
  | int (val : Int)
  | float (val : Printed)
  | bool (val : Bool)
  | string (val : String)
  | time (val : Printed)
  | other (val : String)

structure Key where
  name : String
  clustered : Bool
  cols : List (String × Bool)

structure ForeignKey where
  name : String
  refTable : String
  cols : List String
  refCols : List String
  deleteAction : String
  updateAction : String

structure Index where
  name : String
  unique : Bool
  clustered : Bool
  keys : List (String × Bool)
  includes : List String
  filter : String

structure Table where
  name : String
  columns : List Column
  rows : List (List Value) := []
  primary : Option Key := none
  uniques : List Key := []
  foreignKeys : List ForeignKey := []
  checks : List (String × String) := []
  indexes : List Index := []

def GoFree (text : String) : Prop := EveryLine (fun line => isGOSeparator line = false) text

/-- The text of a view, a trigger or a routine, without a `GO` line of its own. -/
structure Definition where
  text : String
  goFree : GoFree text

structure View where
  name : String
  definition : Definition

structure Trigger where
  name : String
  parent : String
  definition : Definition

structure Routine where
  name : String
  isProcedure : Bool
  definition : Definition

structure Database where
  name : String
  tables : List Table
  views : List View := []
  dependencies : List (String × String) := []
  triggers : List Trigger := []
  routines : List Routine := []

structure Dumper where
  tables : Option TableFilter := none
  schemaOnly : Bool := false

/-! ### Texts -/

def quoteMSSQLIdent (s : String) : String := "[" ++ replaceAll s "]" "]]" ++ "]"

def escapeMSSQL (s : String) : String := replaceAll s "'" "''"

def formatMSSQLType (dataType : String) (maxLen : Option Int) : String :=
  let dt := toLower dataType
  match maxLen with
  | some length =>
    if dt = "char" ∨ dt = "varchar" ∨ dt = "nchar" ∨ dt = "nvarchar" then
      if length = -1 then toUpper dt ++ "(MAX)" else toUpper dt ++ "(" ++ toString length ++ ")"
    else toUpper dt
  | none => toUpper dt

def isStringLikeType (dataType : String) : Bool :=
  ["char", "varchar", "nchar", "nvarchar", "text", "ntext", "xml", "uniqueidentifier", "datetime",
    "datetime2", "smalldatetime", "date", "time", "datetimeoffset", "money", "smallmoney", "decimal",
    "numeric", "float", "real", "bit", "sysname", "sql_variant"].contains (toLower dataType)

def isUnicodeType (dataType : String) : Bool :=
  ["nchar", "nvarchar", "ntext", "xml", "sysname"].contains (toLower dataType)

/-- A part of a row: a string literal with what stands between its quotes, or a
text without quotes. -/
inductive Part where
  | literal (unicode : Bool) (body : String)
  | plain (text : String)

def Part.text : Part → String
  | .literal unicode body => (if unicode then "N'" else "'") ++ body ++ "'"
  | .plain text => text

def hexByte (byte : UInt8) : String :=
  String.ofList [Nat.digitChar (byte.toNat / 16), Nat.digitChar (byte.toNat % 16)]

def valuePart (dataType : String) : Value → Part
  | .null => .plain "NULL"
  | .bytes content text =>
    if isStringLikeType dataType then .literal (isUnicodeType dataType) (escapeMSSQL text)
    else .plain ("0x" ++ String.join (content.map hexByte))
  | .int val => .plain (toString val)
  | .float val => .plain val.text
  | .bool val => .plain (if val then "1" else "0")
  | .string val => .literal (isUnicodeType dataType) (escapeMSSQL val)
  | .time val => .literal false val.text
  | .other val => .literal false (escapeMSSQL val)

def tableName (db table : String) : String :=
  quoteMSSQLIdent db ++ ".[dbo]." ++ quoteMSSQLIdent table

/-- A column of `CREATE TABLE`. -/
def columnText (col : Column) : String :=
  if col.flag.computed then
    "    " ++ quoteMSSQLIdent col.name ++ " AS (" ++ col.flag.definition ++ ")" ++
      (if col.flag.persisted then " PERSISTED" else "")
  else
    "    " ++ quoteMSSQLIdent col.name ++ " " ++ formatMSSQLType col.dataType col.maxLen ++
      (if col.notNull then " NOT NULL" else "") ++
      (match col.colDef with
        | some expr => " DEFAULT " ++ expr
        | none => "") ++
      (if col.flag.identity then " IDENTITY(" ++ col.flag.seed ++ ", " ++ col.flag.step ++ ")" else "")

def createTable (db : String) (table : Table) : String :=
  "CREATE TABLE " ++ tableName db table.name ++ " (\n" ++
    ",\n".intercalate (table.columns.map columnText) ++ "\n);\n\n"

def keyText (col : String × Bool) : String :=
  quoteMSSQLIdent col.1 ++ (if col.2 then " DESC" else " ASC")

def clusteredText (clustered : Bool) : String := if clustered then "CLUSTERED" else "NONCLUSTERED"

def alterTable (db table name : String) : String :=
  "ALTER TABLE " ++ tableName db table ++ " ADD CONSTRAINT " ++ quoteMSSQLIdent name ++ " "

def buildKeyConstraint (db table kind : String) (key : Key) : String :=
  alterTable db table key.name ++ kind ++ " " ++ clusteredText key.clustered ++ " (" ++
    ", ".intercalate (key.cols.map keyText) ++ ");"

def referentialAction (desc : String) : String :=
  if desc = "NO_ACTION" then "" else replaceAll desc "_" " "

def buildForeignKey (db table : String) (key : ForeignKey) : String :=
  let onDelete := referentialAction key.deleteAction
  let onUpdate := referentialAction key.updateAction
  alterTable db table key.name ++ "FOREIGN KEY (" ++
    ", ".intercalate (key.cols.map quoteMSSQLIdent) ++ ") REFERENCES " ++
    tableName db key.refTable ++ " (" ++ ", ".intercalate (key.refCols.map quoteMSSQLIdent) ++ ")" ++
    (if onDelete ≠ "" then " ON DELETE " ++ onDelete else "") ++
    (if onUpdate ≠ "" then " ON UPDATE " ++ onUpdate else "") ++ ";"

def buildCheckConstraint (db table name definition : String) : String :=
  alterTable db table name ++ "CHECK " ++ definition ++ ";"

def buildCreateIndex (db table : String) (index : Index) : String :=
  "CREATE " ++ (if index.unique then "UNIQUE " else "") ++ clusteredText index.clustered ++
    " INDEX " ++ quoteMSSQLIdent index.name ++ " ON " ++ tableName db table ++ " (" ++
    ", ".intercalate (index.keys.map keyText) ++ ")" ++
    (if index.includes.isEmpty then ""
      else " INCLUDE (" ++ ", ".intercalate (index.includes.map quoteMSSQLIdent) ++ ")") ++
    (if index.filter ≠ "" then " WHERE " ++ index.filter else "") ++ ";"

def definitionText (definition : Definition) : String :=
  trimSuffix (trimSpace definition.text) ";" ++ ";\n"

/-! ### Writes -/

inductive Write where
  | text (content : String)
  | definition (content : Definition)
  | go
  | setIdentity (db table : String) (on : Bool)
  | insertInto (db table : String) (cols : List String)
  | comma
  | row (parts : List Part)
  | close
  | defaultValues (db table : String)

def Write.output : Write → String
  | .text content => content
  | .definition content => definitionText content
  | .go => "GO\n"
  | .setIdentity db table on =>
    "SET IDENTITY_INSERT " ++ tableName db table ++ (if on then " ON;\n" else " OFF;\n")
  | .insertInto db table cols =>
    "INSERT INTO " ++ tableName db table ++ " (" ++
      ", ".intercalate (cols.map quoteMSSQLIdent) ++ ") VALUES\n"
  | .comma => ",\n"
  | .row parts => "(" ++ ", ".intercalate (parts.map Part.text) ++ ")"
  | .close => ";\n"
  | .defaultValues db table => "INSERT INTO " ++ tableName db table ++ " DEFAULT VALUES;\n"

def output (writes : List Write) : String := String.join (writes.map Write.output)

/-! ### Rows -/

def batchSize : Nat := 500

def insertCols (table : Table) : List Column := table.columns.filter fun col => !col.flag.computed

def identityInsert (table : Table) : Bool := (insertCols table).any fun col => col.flag.identity

/-- The parts of a row, without the computed columns. -/
def rowParts (table : Table) (vals : List Value) : List Part :=
  (table.columns.zip vals).filterMap fun entry =>
    if entry.1.flag.computed then none else some (valuePart entry.1.dataType entry.2)

def switch (db : String) (table : Table) (on : Bool) : List Write :=
  if identityInsert table then [.setIdentity db table.name on] else []

def insertHead (db : String) (table : Table) : Write :=
  .insertInto db table.name ((insertCols table).map Column.name)

/-- The loop over the rows, and what is written when it ends. -/
def dumpRows (db : String) (table : Table) : Nat → Nat → List (List Value) → List Write
  | _, batchRows, [] =>
    if batchRows > 0 then [.close, .go] ++ switch db table false ++ [.text "\n"] else []
  | rowCount, batchRows, vals :: rest =>
    (if batchRows = 0 then
        (if rowCount = 0 then switch db table true else []) ++ [insertHead db table]
      else if batchRows < batchSize then [.comma] else []) ++
      [.row (rowParts table vals)] ++
      (if batchRows + 1 ≥ batchSize then
        [.close, .go, .text "\n"] ++ dumpRows db table (rowCount + 1) 0 rest
      else dumpRows db table (rowCount + 1) (batchRows + 1) rest)

def dumpDefaultRows (db : String) (table : Table) : List Write :=
  table.rows.flatMap (fun _ => [Write.defaultValues db table.name, .go]) ++
    (if table.rows.length > 0 then [Write.text "\n"] else [])

/-! ### A database -/

def included (d : Dumper) (name : String) : Bool :=
  match d.tables with
  | some filter => (filter.apply name).1
  | none => true

def schemaOnly (d : Dumper) (name : String) : Bool :=
  match d.tables with
  | some filter => d.schemaOnly || (filter.apply name).2
  | none => d.schemaOnly

def dumpTable (d : Dumper) (db : String) (table : Table) : List Write :=
  [Write.text ("DROP TABLE IF EXISTS " ++ tableName db table.name ++ ";\n"), .go,
    .text ("-- Table: " ++ table.name ++ "\n" ++ createTable db table), .go, .text "\n"] ++
    (if schemaOnly d table.name then []
      else if (insertCols table).isEmpty then dumpDefaultRows db table
      else dumpRows db table 0 0 table.rows)

def constraintLines (db : String) (table : Table) : List String :=
  (table.primary.toList.map (buildKeyConstraint db table.name "PRIMARY KEY")) ++
    table.uniques.map (buildKeyConstraint db table.name "UNIQUE") ++
    table.foreignKeys.map (buildForeignKey db table.name) ++
    table.checks.map fun check => buildCheckConstraint db table.name check.1 check.2

def indexLines (db : String) (table : Table) : List String :=
  table.indexes.map (buildCreateIndex db table.name)

/-- A comment and then the statements, each a batch of its own. -/
def dumpStatements (comment : String) (lines : List String) : List Write :=
  if lines.isEmpty then []
  else .text comment :: lines.flatMap fun line => [.text (line ++ "\n"), .go]

def dumpConstraints (db : String) (tables : List Table) : List Write :=
  tables.flatMap fun table =>
    dumpStatements ("\n-- Constraints: " ++ table.name ++ "\n") (constraintLines db table)

def dumpIndexes (db : String) (tables : List Table) : List Write :=
  tables.flatMap fun table =>
    dumpStatements ("\n-- Indexes: " ++ table.name ++ "\n") (indexLines db table)

/-- One pass over the names: a view is emitted when all it needs is done. -/
def orderPass (needs : String → List String) (names done : List String) : List String :=
  names.foldl (fun done name =>
    if done.contains name then done
    else if (needs name).all done.contains then done ++ [name] else done) done

def orderLoop (needs : String → List String) (names : List String) :
    Nat → List String → List String
  | 0, out => out
  | fuel + 1, out =>
    if out.length < names.length then
      let next := orderPass needs names out
      if next.length = out.length then out ++ names.filter fun name => !out.contains name
      else orderLoop needs names fuel next
    else out

/-- The loop on distinct names: each pass but the last emits a view, so there are at most
as many passes as names. With a name listed twice the source's loop does not end
(`DbBackup.Engine.Mssql.ViewOrder`). -/
def orderViewsByDependency (names : List String) (deps : List (String × String)) : List String :=
  let needs := fun name => (deps.filter fun dep =>
    dep.1 = name && dep.1 ≠ dep.2 && names.contains dep.1 && names.contains dep.2).map Prod.snd
  orderLoop needs names names.length []

/-- A comment, the `DROP` of an object, and its definition. -/
def dumpModule (comment kind name : String) (definition : Definition) : List Write :=
  [.text (comment ++ "DROP " ++ kind ++ " IF EXISTS " ++ quoteMSSQLIdent name ++ ";\n"), .go,
    .definition definition, .go, .text "\n"]

def dumpView (view : View) : List Write :=
  dumpModule ("\n-- View: " ++ view.name ++ "\n") "VIEW" view.name view.definition

def dumpViews (d : Dumper) (database : Database) : List Write :=
  let views := database.views.filter fun view => included d view.name
  (orderViewsByDependency (views.map View.name) database.dependencies).flatMap fun name =>
    (views.find? fun view => view.name = name).toList.flatMap dumpView

def dumpTriggers (tables : List Table) (triggers : List Trigger) : List Write :=
  (triggers.filter fun trigger => (tables.map Table.name).contains trigger.parent).flatMap
    fun trigger =>
      dumpModule ("\n-- Trigger: " ++ trigger.name ++ " (on " ++ trigger.parent ++ ")\n") "TRIGGER"
        trigger.name trigger.definition

def dumpRoutines (routines : List Routine) : List Write :=
  routines.flatMap fun routine =>
    dumpModule ("\n-- Routine: " ++ routine.name ++ "\n")
      (if routine.isProcedure then "PROCEDURE" else "FUNCTION") routine.name routine.definition

def dumpedTables (d : Dumper) (database : Database) : List Table :=
  database.tables.filter fun table => included d table.name

def dumpDatabase (d : Dumper) (database : Database) : List Write :=
  let dumped := dumpedTables d database
  [Write.text ("-- Database: " ++ database.name ++ "\n")] ++
    dumped.flatMap (dumpTable d database.name) ++ dumpConstraints database.name dumped ++
    dumpIndexes database.name dumped ++ dumpViews d database ++
    dumpTriggers dumped database.triggers ++ dumpRoutines database.routines

/-- `Dump`: the banner is the lines `DumpBanner` writes, with `Host` and `Server`. -/
def dump (d : Dumper) (banner : String) (databases : List Database) : List Write :=
  [Write.text (banner ++ "--\n\n")] ++ databases.flatMap (dumpDatabase d)

/-! ### The rows chunk by chunk -/

/-- Rows inside one `INSERT`. -/
def rowWrites (table : Table) : List (List Value) → List Write
  | [] => []
  | vals :: rest =>
    .row (rowParts table vals) :: rest.flatMap fun next => [.comma, .row (rowParts table next)]

def insertWrites (db : String) (table : Table) (chunk : List (List Value)) : List Write :=
  insertHead db table :: rowWrites table chunk ++ [Write.close, .go]

/-- One `INSERT`; the switch is set back after one that is not full. -/
def block (db : String) (table : Table) (chunk : List (List Value)) : List Write :=
  insertWrites db table chunk ++
    (if chunk.length < batchSize then switch db table false else []) ++ [Write.text "\n"]

/-- The writes of a chunk that is being collected. -/
def started (db : String) (table : Table) (cur : List (List Value)) : List Write :=
  if cur.isEmpty then [] else insertHead db table :: rowWrites table cur

theorem rowWrites_concat (table : Table) {cur : List (List Value)} (notEmpty : cur ≠ [])
    (vals : List Value) :
    rowWrites table (cur ++ [vals]) =
      rowWrites table cur ++ [Write.comma, .row (rowParts table vals)] := by
  cases cur with
  | nil => exact absurd rfl notEmpty
  | cons first rest => simp [rowWrites]

theorem started_concat (db : String) (table : Table) (cur : List (List Value)) (vals : List Value) :
    started db table (cur ++ [vals]) = started db table cur ++
      (if cur.length = 0 then [insertHead db table] else [.comma]) ++
        [Write.row (rowParts table vals)] := by
  cases cur with
  | nil => rfl
  | cons first rest =>
    have grown := rowWrites_concat table (List.cons_ne_nil first rest) vals
    rw [List.cons_append] at grown
    simp [started, grown]

/-- The loop at a later row, with `cur` already written. -/
theorem started_append_dumpRows (db : String) (table : Table) {cur rows : List (List Value)}
    {rowCount : Nat} (later : rowCount ≠ 0) (room : cur.length < batchSize) :
    started db table cur ++ dumpRows db table rowCount cur.length rows =
      (chunks batchSize cur rows).flatMap (block db table) := by
  induction rows generalizing cur rowCount with
  | nil =>
    cases cur with
    | nil => rfl
    | cons first rest =>
      have short : block db table (first :: rest) =
          started db table (first :: rest) ++
            ([Write.close, .go] ++ switch db table false ++ [Write.text "\n"]) := by
        rw [block, if_pos room]
        simp [insertWrites, started]
      simp [dumpRows, chunks, short]
  | cons vals rest ih =>
    have grown := started_concat db table cur vals
    have opened : (if cur.length = 0 then
          (if rowCount = 0 then switch db table true else []) ++ [insertHead db table]
        else if cur.length < batchSize then [.comma] else []) =
        if cur.length = 0 then [insertHead db table] else [.comma] := by
      rw [if_neg later, List.nil_append, if_pos room]
    rw [dumpRows, opened, chunks]
    have laterStill : rowCount + 1 ≠ 0 := Nat.succ_ne_zero _
    by_cases full : batchSize ≤ cur.length + 1
    · have size : (cur ++ [vals]).length = batchSize := by
        rw [List.length_append, List.length_singleton]
        exact Nat.le_antisymm room full
      have blockFull : block db table (cur ++ [vals]) =
          started db table (cur ++ [vals]) ++ [Write.close, .go, .text "\n"] := by
        simp [block, insertWrites, started, size]
      have rest := @ih [] (rowCount + 1) laterStill (by decide)
      rw [if_pos full, if_pos full, List.flatMap_cons, ← rest, blockFull, grown]
      simp [started]
    · have stillRoom : (cur ++ [vals]).length < batchSize := by
        rw [List.length_append, List.length_singleton]
        exact Nat.lt_of_not_le full
      have rest := @ih (cur ++ [vals]) (rowCount + 1) laterStill stillRoom
      rw [List.length_append, List.length_singleton] at rest
      rw [if_neg full, if_neg full, ← rest, grown]
      simp

theorem dumpRows_eq (db : String) (table : Table) (rows : List (List Value)) :
    dumpRows db table 0 0 rows =
      (if rows.isEmpty then [] else switch db table true) ++
        (chunks batchSize [] rows).flatMap (block db table) := by
  cases rows with
  | nil => rfl
  | cons vals rest =>
    have notFull : ¬ batchSize ≤ ([] : List (List Value)).length + 1 := by decide
    have remaining := @started_append_dumpRows db table [vals] rest 1 (by decide)
      (show 1 < batchSize by decide)
    have begun : dumpRows db table 0 0 (vals :: rest) = switch db table true ++
        (started db table [vals] ++ dumpRows db table 1 [vals].length rest) := by
      simp [dumpRows, started, rowWrites, batchSize]
    rw [begun, remaining, chunks, if_neg notFull]
    rfl

end DbBackup.Engine.Mssql
