import DbBackup.Config.TableFilter
import DbBackup.Lib.LineScan

/-!
Owns what `Dump` of `internal/database/engine/sqlite/sqlite.go` writes, as a
list of pieces, and how `restoreStream` of `ops.go` reads it.

A database is what the queries return: the tables that are no shadow tables,
the literals `quote()` makes of their values, the rows of `sqlite_stat1` and
`sqlite_sequence`, and the indexes, views and triggers.

Does not own when the two agree.
-/

set_option linter.all false

namespace DbBackup.Engine.Sqlite

open Config Lib.GoString Lib.LineScan

/-! ### The database -/

/-- A value as `quote()` tells them apart; numbers and blobs with their text. -/
inductive Value where
  | null
  | number (digits : String)
  | text (value : String)
  | blob (hex : String)
deriving DecidableEq

def Value.quote : Value → String
  | .null => "NULL"
  | .number digits => digits
  | .text value => "'" ++ replaceAll value "'" "''" ++ "'"
  | .blob hex => "X'" ++ hex ++ "'"

structure Table where
  name : String
  createSQL : String
  /-- SQLite stores the text from its first keyword on. -/
  begins : createSQL.toList.head?.map isSpace = some false
  /-- The columns that are not generated. -/
  insertCols : List String := []
  rows : List (List Value) := []
deriving DecidableEq

structure Stat where
  tbl : Option String
  idx : Value
  stat : Value
deriving DecidableEq

inductive ObjectKind where
  | index
  | view
  | trigger
deriving DecidableEq

def ObjectKind.keyword : ObjectKind → String
  | .index => "INDEX"
  | .view => "VIEW"
  | .trigger => "TRIGGER"

structure SchemaObject where
  kind : ObjectKind
  name : String
  tblName : String
  sql : String
deriving DecidableEq

structure Database where
  path : String
  server : String
  version : String
  dumped : String
  tables : List Table := []
  stats : List Stat := []
  sequences : List (String × Int) := []
  objects : List SchemaObject := []

structure DumpOptions where
  schemaOnly : Bool := false
  tables : Option TableFilter := none

def DumpOptions.included (options : DumpOptions) (table : String) : Bool :=
  match options.tables with
  | none => true
  | some filter => (filter.apply table).1

def DumpOptions.tableSchemaOnly (options : DumpOptions) (table : String) : Bool :=
  options.schemaOnly ||
    match options.tables with
    | none => false
    | some filter => (filter.apply table).2

/-! ### The dump -/

inductive Piece where
  /-- A comment line; the text follows the two dashes. -/
  | comment (text : String)
  | sql (text : String)
  | gap
deriving DecidableEq

def Piece.text : Piece → String
  | .comment text => "--" ++ text ++ "\n"
  | .sql text => text ++ "\n"
  | .gap => "\n"

def render (pieces : List Piece) : String := String.join (pieces.map Piece.text)

def Piece.statement : Piece → Option String
  | .sql text => some text
  | _ => none

def quoteSQLiteIdent (s : String) : String := "\"" ++ replaceAll s "\"" "\"\"" ++ "\""

def insertStatement (table : Table) : String :=
  "INSERT INTO " ++ quoteSQLiteIdent table.name ++ " (" ++
    ", ".intercalate (table.insertCols.map quoteSQLiteIdent) ++ ") VALUES\n" ++
    ",\n".intercalate (table.rows.map fun row =>
      "(" ++ ", ".intercalate (row.map Value.quote) ++ ")") ++ ";"

def dumpDefaultRows (table : Table) : List Piece :=
  if table.rows = [] then []
  else table.rows.map (fun _ =>
    Piece.sql ("INSERT INTO " ++ quoteSQLiteIdent table.name ++ " DEFAULT VALUES;")) ++ [Piece.gap]

def tableRows (table : Table) : List Piece :=
  if table.insertCols = [] then dumpDefaultRows table
  else if table.rows = [] then []
  else [.sql (insertStatement table), .gap]

def dumpTable (options : DumpOptions) (table : Table) : List Piece :=
  [Piece.sql ("DROP TABLE IF EXISTS " ++ quoteSQLiteIdent table.name ++ ";"),
    .comment (" Table: " ++ table.name), .sql (table.createSQL ++ ";"), .gap] ++
    if options.tableSchemaOnly table.name then [] else tableRows table

/-- The rows `dumpTable` counts; `none` for a table that is left out. -/
def rowsByTable (options : DumpOptions) (db : Database) (name : String) : Option Nat :=
  ((db.tables.filter fun table => options.included table.name).find? (·.name = name)).map
    fun table => if options.tableSchemaOnly table.name then 0 else table.rows.length

def Stat.table (stat : Stat) : Value :=
  match stat.tbl with
  | none => .null
  | some name => .text name

def statStatement (stat : Stat) : String :=
  "INSERT INTO sqlite_stat1 (tbl, idx, stat) VALUES (" ++ stat.table.quote ++ ", " ++
    stat.idx.quote ++ ", " ++ stat.stat.quote ++ ");"

def dumpQueryStats (options : DumpOptions) (db : Database) : List Piece :=
  let kept := db.stats.filter fun stat =>
    match stat.tbl with
    | none => true
    | some name => (rowsByTable options db name).isSome
  if kept = [] then []
  else [Piece.sql "ANALYZE sqlite_schema;", .sql "DELETE FROM sqlite_stat1;"] ++
    kept.map (fun stat => Piece.sql (statStatement stat)) ++ [Piece.gap]

def sequenceStatement (sequence : String × Int) : String :=
  "UPDATE sqlite_sequence SET seq=" ++ toString sequence.2 ++ " WHERE name='" ++
    replaceAll sequence.1 "'" "''" ++ "';"

def dumpSequences (options : DumpOptions) (db : Database) : List Piece :=
  let kept := db.sequences.filter fun sequence =>
    (rowsByTable options db sequence.1).getD 0 ≠ 0
  kept.map (fun sequence => Piece.sql (sequenceStatement sequence)) ++
    if kept = [] then [] else [Piece.gap]

def dumpSchemaObject (object : SchemaObject) : List Piece :=
  [.sql ("DROP " ++ object.kind.keyword ++ " IF EXISTS " ++ quoteSQLiteIdent object.name ++ ";"),
    .sql (trimSuffix (trimSpace object.sql) ";" ++ ";"), .gap]

def dumpSchemaObjects (options : DumpOptions) (db : Database) : List Piece :=
  (db.objects.filter fun object => options.included object.tblName).flatMap dumpSchemaObject

def dumpBanner (db : Database) : List Piece :=
  [.comment (" db-backup | SQLite | https://nfrastack.com/db-backup | " ++ db.version),
    .comment (" Dumped: " ++ db.dumped),
    .comment (" File: " ++ db.path ++ "  Server: " ++ db.server), .comment "", .gap]

/-- Everything before the last statement. -/
def dumpBody (options : DumpOptions) (db : Database) : List Piece :=
  dumpBanner db ++ [Piece.sql "PRAGMA foreign_keys=OFF;", .sql "BEGIN TRANSACTION;", .gap] ++
    (db.tables.filter fun table => options.included table.name).flatMap (dumpTable options) ++
    dumpQueryStats options db ++ dumpSequences options db ++ dumpSchemaObjects options db

def dump (options : DumpOptions) (db : Database) : List Piece :=
  dumpBody options db ++ [Piece.sql "COMMIT;"]

/-! ### The restore -/

def isComment (line : String) : Bool := hasPrefix (trimSpace line) "--"

def endsLine (line : String) : Bool := hasSuffix (trimSpace line) ";"

def stmtComplete (s : String) : Bool :=
  let up := toUpper (trimSpace s)
  if hasPrefix up "CREATE " then
    let rest := trimSpace (trimPrefix up "CREATE ")
    let rest := trimSpace (trimPrefix rest "TEMPORARY ")
    let rest := trimSpace (trimPrefix rest "TEMP ")
    if hasPrefix rest "TRIGGER " then hasSuffix up "END;" else true
  else true

/-- The loop of `restoreStream`, with the text collected so far. -/
def restoreLoop (cur : String) : List String → List String
  | [] => if cur = "" then [] else [cur]
  | line :: rest =>
    if isComment line then restoreLoop cur rest
    else if endsLine line ∧ stmtComplete (cur ++ line ++ "\n") = true then
      (cur ++ line ++ "\n") :: restoreLoop "" rest
    else restoreLoop (cur ++ line ++ "\n") rest

/-- The statements `Restore` executes. -/
def executed (dump : String) : List String :=
  ((restoreLoop "" (textLines dump)).map trimSpace).filter fun stmt =>
    stmt ≠ "" && !hasPrefix stmt "--"

end DbBackup.Engine.Sqlite
