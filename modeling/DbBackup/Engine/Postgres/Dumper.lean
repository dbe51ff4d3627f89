import DbBackup.Engine.Postgres.Stream
import Mathlib.Data.List.Sort

/-!
Owns the text `dumpDatabase` of `internal/database/engine/postgres/postgres.go`
writes, as a list of pieces, from the answers the catalogue queries give.

A catalogue is what the queries return: relations and partitions by name, and
lists of schemas, types, sequences, views and comments. Query errors that only
leave a part out are an empty answer; the one error modelled is a partition
nesting deeper than eight levels.

The dumpers of objects with names of other kinds (extensions, collations,
languages, functions, aggregates, foreign objects, text search, casts,
conversions, operator classes, event triggers, triggers, policies, rules,
statistics, large objects, default privileges, publications) are given as the
pieces they write, at the places where `dumpDatabase` calls them.

Does not own what the restorer makes of the text.
-/

set_option linter.all false

namespace DbBackup.Engine.Postgres.Dumper

open Lib.GoString Lib.LineScan Engine.Postgres.Stream

/-! ### Names and literals -/

def quotePGIdent (s : String) : String := "\"" ++ replaceAll s "\"" "\"\"" ++ "\""

def quotePGRole (name : String) : String :=
  if 2 ≤ name.toList.length ∧ hasPrefix name "\"" = true ∧ hasSuffix name "\"" = true then
    quotePGIdent (replaceAll (String.ofList (name.toList.drop 1).dropLast) "\"\"" "\"")
  else quotePGIdent name

def escapePGLiteral (s : String) : String := replaceAll s "'" "''"

def escapePgCopy (s : String) : String :=
  replaceAll (replaceAll (replaceAll (replaceAll s "\\" "\\\\") "\t" "\\t") "\n" "\\n") "\r" "\\r"

def qualified (schema name : String) : String := quotePGIdent schema ++ "." ++ quotePGIdent name

/-- A statement of one line: a keyword, its parts and the semicolon. -/
def statement (keyword : String) (parts : List String) : String :=
  keyword ++ String.join parts ++ ";"

/-- `strings.SplitN(table, ".", 2)`; a name without a dot has no second part. -/
def splitTable (table : String) : String × Option String :=
  let schema := table.toList.takeWhile (· ≠ '.')
  match table.toList.drop schema.length with
  | [] => (table, none)
  | _ :: name => (String.ofList schema, some (String.ofList name))

/-! ### The catalogue -/

structure Grant where
  grantee : String
  priv : String
  grantable : Bool
deriving DecidableEq

structure IdentitySequence where
  schema : String
  name : String
  start : Int
  increment : Int
  min : Int
  max : Int
  cache : Int
  cycle : Bool
deriving DecidableEq

structure Column where
  name : String
  typ : String
  notNull : Bool := false
  defExpr : String := ""
  identity : String := ""
  generated : String := ""
  isLocal : Bool := true
  collation : Option (String × String) := none
  notNullName : Option String := none
  identitySequence : Option IdentitySequence := none
deriving DecidableEq

structure Constraint where
  name : String
  definition : String
deriving DecidableEq

structure Relation where
  columns : List Column := []
  inheritParents : List (String × String) := []
  partitionBy : String := ""
  primaryKey : Option Constraint := none
  uniqueConstraints : List Constraint := []
  indexes : List String := []
  checkConstraints : List Constraint := []
  foreignKeys : List Constraint := []
  exclusionConstraints : List Constraint := []
  owner : String := ""
  isPartitioned : Bool := false
  grants : List Grant := []
  copyColumns : List String := []
  rows : List (List (Option String)) := []
deriving DecidableEq

structure PartRef where
  schema : String
  name : String
  bound : String
deriving DecidableEq

structure Schema where
  name : String
  owner : String := ""
  grants : List Grant := []
deriving DecidableEq

inductive TypeBody where
  | enum (labels : List String)
  | composite (attributes : List (String × String))
  | domain (base default : String) (notNull : Bool) (checks : List Constraint)
  | range (options : String)
deriving DecidableEq

/-- The keyword of the type's DROP and ALTER statements. -/
def TypeBody.keyword : TypeBody → String
  | .domain .. => "DOMAIN"
  | _ => "TYPE"

structure UserType where
  schema : String
  name : String
  body : TypeBody
  owner : String := ""
  grants : List Grant := []
deriving DecidableEq

structure Sequence where
  schema : String
  name : String
  owner : String := ""
  /-- Not an identity sequence: `listStandaloneSequences` returns it. -/
  standalone : Bool := true
  typ : String := "bigint"
  options : String := ""
  ownedBy : Option (String × String) := none
  lastValue : Option (Int × Bool) := none
deriving DecidableEq

structure View where
  schema : String
  name : String
  definition : String
  owner : String := ""
  grants : List Grant := []
deriving DecidableEq

structure Matview where
  schema : String
  name : String
  owner : String := ""
  definition : String
  populated : Bool := false
  indexes : List String := []
deriving DecidableEq

inductive RelKind where
  | table
  | view
  | matview
  | sequence
  | index
deriving DecidableEq

/-- The map `kindKw`. -/
def RelKind.keyword : RelKind → String
  | .table => "TABLE"
  | .view => "VIEW"
  | .matview => "MATERIALIZED VIEW"
  | .sequence => "SEQUENCE"
  | .index => "INDEX"

structure Comment where
  schema : String
  rel : String
  kind : RelKind
  column : Option String := none
  description : String
deriving DecidableEq

structure Routine where
  schema : String
  name : String
  args : String
  owner : String := ""
  isProcedure : Bool := false
  grants : List Grant := []
deriving DecidableEq

/-- What the dumpers that are left out write. -/
structure OtherPieces where
  extensionsAndCollations : List Piece := []
  routines : List Piece := []
  foreignObjects : List Piece := []
  tableRoutines : List Piece := []
  tableObjects : List Piece := []
  blobs : List Piece := []
  privileges : List Piece := []

structure Catalogue where
  dbName : String
  /-- `listTables`: schema and name joined by a dot. -/
  tables : List String := []
  relation : String → String → Relation := fun _ _ => {}
  partitions : String → String → List PartRef := fun _ _ => []
  inheritanceDepth : String → Nat := fun _ => 0
  schemas : List Schema := []
  types : List UserType := []
  sequences : List Sequence := []
  views : List View := []
  matviews : List Matview := []
  comments : List Comment := []
  routines : List Routine := []
  publications : List String := []
  other : OtherPieces := {}

structure DumpOptions where
  schemaOnly : Bool := false
  /-- `Tables.Apply`: whether a table is dumped, and whether as schema only. -/
  apply : Option (String → Bool × Bool) := none

/-! ### Grants and owners -/

/-- `formatGrants`: one `GRANT` for each grantee and grant option, in the order
in which they first appear. -/
def formatGrants (target : String) (grants : List Grant) : List Piece :=
  let keys := (grants.map fun g => (g.grantee, g.grantable)).eraseDups
  if keys = [] then []
  else
    .sql (statement "REVOKE ALL ON " [target, " FROM PUBLIC"]) ::
      keys.map fun key =>
        let privs := (grants.filter fun g => (g.grantee, g.grantable) = key).map Grant.priv
        let grantee := if key.1 = "PUBLIC" then key.1 else quotePGRole key.1
        let option := if key.2 then " WITH GRANT OPTION" else ""
        .sql (statement "GRANT " [", ".intercalate privs, " ON ", target, " TO ", grantee, option])

def alterOwner (kind target owner : String) : String :=
  statement ("ALTER " ++ kind ++ " ") [target, " OWNER TO ", quotePGRole owner]

/-- The owner statement, where the owner is known. -/
def ownerPieces (kind target owner : String) : List Piece :=
  if owner = "" then [] else [.sql (alterOwner kind target owner)]

/-! ### Tables -/

def addConstraint (only schema table : String) (c : Constraint) : String :=
  statement "ALTER TABLE "
    [only, qualified schema table, " ADD CONSTRAINT ", quotePGIdent c.name, " ", c.definition]

/-- The constraint statements of one kind; an empty definition is left out. -/
def constraints (only schema table : String) (cs : List Constraint) : List Piece :=
  (cs.filter fun c => c.definition ≠ "").map fun c => .sql (addConstraint only schema table c)

def identitySequenceDef (s : IdentitySequence) : String :=
  "SEQUENCE NAME " ++ qualified s.schema s.name ++ " START WITH " ++ toString s.start ++
    " INCREMENT BY " ++ toString s.increment ++ " MINVALUE " ++ toString s.min ++
    " MAXVALUE " ++ toString s.max ++ " CACHE " ++ toString s.cache ++
    (if s.cycle then " CYCLE" else "")

def identityOptions (c : Column) : String :=
  match c.identitySequence with
  | some s => " (" ++ identitySequenceDef s ++ ")"
  | none => if c.defExpr = "" then "" else " (" ++ c.defExpr ++ ")"

def columnDefault (c : Column) : String :=
  if c.generated = "s" then
    if c.defExpr = "" then "" else " GENERATED ALWAYS AS (" ++ c.defExpr ++ ") STORED"
  else if c.identity = "a" then " GENERATED ALWAYS AS IDENTITY" ++ identityOptions c
  else if c.identity = "d" then " GENERATED BY DEFAULT AS IDENTITY" ++ identityOptions c
  else if c.defExpr = "" then "" else " DEFAULT " ++ c.defExpr

def columnDef (inherits : Bool) (c : Column) : String :=
  "\n    " ++ quotePGIdent c.name ++ " " ++ c.typ ++
    if inherits && !c.isLocal then ""
    else
      (match c.collation with
        | some (schema, name) => " COLLATE " ++ qualified schema name
        | none => "") ++
      (match c.notNullName with
        | some name => " CONSTRAINT " ++ quotePGIdent name
        | none => "") ++
      (if c.notNull then " NOT NULL" else "") ++ columnDefault c

def createTable (schema table : String) (r : Relation) : String :=
  let inherits := !r.inheritParents.isEmpty
  "CREATE TABLE " ++ qualified schema table ++ " (" ++
    ",".intercalate (r.columns.map (columnDef inherits)) ++ "\n)" ++
    (if r.partitionBy = "" then "" else " " ++ r.partitionBy) ++
    (if inherits then
      " INHERITS (" ++ ", ".intercalate (r.inheritParents.map fun p => qualified p.1 p.2) ++ ")"
    else "") ++ ";"

def getPrimaryKey (schema table : String) (r : Relation) : List Piece :=
  constraints "ONLY " schema table r.primaryKey.toList

def getUniqueConstraints (schema table : String) (r : Relation) : List Piece :=
  constraints "ONLY " schema table r.uniqueConstraints

def getIndexes (indexes : List String) : List Piece :=
  indexes.map fun definition => .sql (definition ++ ";")

def getCheckConstraints (schema table : String) (r : Relation) : List Piece :=
  constraints "ONLY " schema table r.checkConstraints

def getForeignKeys (schema table : String) (r : Relation) : List Piece :=
  constraints (if r.isPartitioned then "" else "ONLY ") schema table r.foreignKeys

def getExclusionConstraints (schema table : String) (r : Relation) : List Piece :=
  constraints "ONLY " schema table r.exclusionConstraints

def createPartition (schema table : String) (p : PartRef) : String :=
  statement "CREATE TABLE "
    [qualified p.schema p.name, " PARTITION OF ", qualified schema table, " ", p.bound]

def getPartitions (cat : Catalogue) (schema table : String) : List Piece :=
  (cat.partitions schema table).map fun p => .sql (createPartition schema table p)

/-- The pieces of `getCreateTable`, with the blank lines between its parts and
the one the caller writes after it. -/
def getCreateTable (cat : Catalogue) (schema table : String) : List Piece :=
  let r := cat.relation schema table
  let uniques := getUniqueConstraints schema table r
  let parts := getPartitions cat schema table
  [Piece.sql (statement "DROP TABLE IF EXISTS " [qualified schema table]),
    .sql (createTable schema table r)] ++ getPrimaryKey schema table r ++
    uniques ++ (if uniques = [] then [] else [Piece.gap]) ++ getIndexes r.indexes ++ [Piece.gap] ++
    getCheckConstraints schema table r ++
    (if parts = [] then [Piece.gap, .gap] else Piece.gap :: parts ++ [Piece.gap])

def copyLine (row : List (Option String)) : String :=
  "\t".intercalate (row.map fun
    | none => "\\N"
    | some value => escapePgCopy value)

def copyHeader (schema table : String) (columns : List String) : String :=
  "COPY " ++ qualified schema table ++ " (" ++ ", ".intercalate (columns.map quotePGIdent) ++
    ") FROM stdin"

def copyData (cat : Catalogue) (schema table : String) : List Piece :=
  let r := cat.relation schema table
  [.copy (copyHeader schema table r.copyColumns) (r.rows.map copyLine), .gap]

/-- The constraints that wait until every table is there. -/
def lateConstraints (cat : Catalogue) (schema table : String) : List Piece :=
  let r := cat.relation schema table
  getForeignKeys schema table r ++ getExclusionConstraints schema table r

def tableOwner (cat : Catalogue) (schema table : String) : List Piece :=
  let owner := (cat.relation schema table).owner
  if owner = "" then [] else [.sql (alterOwner "TABLE" (qualified schema table) owner), .gap]

/-- What the dump of one table writes, and what it leaves for later. -/
structure TableDump where
  pieces : List Piece := []
  partitionNames : List String := []
  attach : List Piece := []
  constraints : List Piece := []

def TableDump.append (first second : TableDump) : TableDump where
  pieces := first.pieces ++ second.pieces
  partitionNames := first.partitionNames ++ second.partitionNames
  attach := first.attach ++ second.attach
  constraints := first.constraints ++ second.constraints

def TableDump.concat (dumps : List TableDump) : TableDump := dumps.foldr TableDump.append {}

def attachPartition (schema table : String) (p : PartRef) : String :=
  statement "ALTER TABLE ONLY "
    [qualified schema table, " ATTACH PARTITION ", qualified p.schema p.name, " ", p.bound]

/-- One partition, given the dump of the partitions below it. -/
def partitionDump (cat : Catalogue) (schemaOnly : Bool) (schema table : String) (p : PartRef)
    (nested : TableDump) : TableDump where
  pieces := .comment ("Partition: " ++ p.schema ++ "." ++ p.name ++ " (of " ++ schema ++ "." ++
      table ++ ")") :: getCreateTable cat p.schema p.name ++ tableOwner cat p.schema p.name ++
    (if schemaOnly then [] else copyData cat p.schema p.name) ++ nested.pieces
  partitionNames := (p.schema ++ "." ++ p.name) :: nested.partitionNames
  attach := nested.attach ++ [.sql (attachPartition schema table p)]
  constraints := nested.constraints ++ lateConstraints cat p.schema p.name

/-- `dumpPartitions`; the fuel is what is left of the nine levels before the
nesting is too deep. -/
def dumpPartitions (cat : Catalogue) (schemaOnly : Bool) :
    Nat → String → String → Option TableDump
  | 0, _, _ => none
  | fuel + 1, schema, table =>
    ((cat.partitions schema table).mapM fun p =>
      if (cat.relation p.schema p.name).isPartitioned then
        (dumpPartitions cat schemaOnly fuel p.schema p.name).map
          (partitionDump cat schemaOnly schema table p)
      else some (partitionDump cat schemaOnly schema table p {})).map TableDump.concat

def tableSchemaOnly (options : DumpOptions) (table : String) : Bool :=
  options.schemaOnly ||
    match options.apply with
    | none => false
    | some apply => (apply table).2 ||
        match (splitTable table).2 with
        | some bare => (apply bare).2
        | none => false

def dumpTable (cat : Catalogue) (options : DumpOptions) (table : String) : Option TableDump :=
  let schema := (splitTable table).1
  let name := (splitTable table).2.getD ""
  let schemaOnly := tableSchemaOnly options table
  let own : TableDump := {
    pieces := .comment ("Table: " ++ schema ++ "." ++ name) ::
      getCreateTable cat schema name ++ tableOwner cat schema name
    constraints := lateConstraints cat schema name }
  if (cat.relation schema name).isPartitioned then
    (dumpPartitions cat schemaOnly 9 schema name).map own.append
  else if schemaOnly then some own
  else some { own with pieces := own.pieces ++ copyData cat schema name }

/-- The table filter of `dumpDatabase`. -/
def tableIncluded (options : DumpOptions) (table : String) : Bool :=
  match options.apply with
  | none => true
  | some apply => (apply table).1 ||
      match (splitTable table).2 with
      | some bare => (apply bare).1
      | none => false

def includedTables (cat : Catalogue) (options : DumpOptions) : List String :=
  (cat.tables.filter (tableIncluded options)).mergeSort fun a b =>
    cat.inheritanceDepth a ≤ cat.inheritanceDepth b

/-! ### The other objects -/

def dumpDrops (cat : Catalogue) (included : List String) : List Piece :=
  Piece.comment "Drops (re-restore safety)" ::
    (included.filterMap fun table =>
      (splitTable table).2.map fun name =>
        Piece.sql
          (statement "DROP TABLE IF EXISTS " [qualified (splitTable table).1 name, " CASCADE"])) ++
    (cat.sequences.map fun s =>
      Piece.sql (statement "DROP SEQUENCE IF EXISTS " [qualified s.schema s.name, " CASCADE"])) ++
    (cat.types.map fun t =>
      Piece.sql (statement ("DROP " ++ t.body.keyword ++ " IF EXISTS ")
        [qualified t.schema t.name, " CASCADE"])) ++
    cat.publications.map fun p =>
      Piece.sql (statement "DROP PUBLICATION IF EXISTS " [quotePGIdent p])

/-- The schemas of the dumped tables, or all where no filter is set. -/
def schemaNeeded (options : DumpOptions) (included : List String) (name : String) : Bool :=
  match options.apply with
  | none => true
  | some _ => included.any fun table =>
    (splitTable table).2.isSome && (splitTable table).1 = name

def dumpSchemas (cat : Catalogue) (options : DumpOptions) (included : List String) : List Piece :=
  (cat.schemas.filter fun s => schemaNeeded options included s.name).flatMap fun s =>
    [Piece.comment ("Schema: " ++ s.name),
      .sql (statement "CREATE SCHEMA IF NOT EXISTS " [quotePGIdent s.name])] ++
    ownerPieces "SCHEMA" (quotePGIdent s.name) s.owner ++
    formatGrants ("SCHEMA " ++ quotePGIdent s.name) s.grants

/-- `typeDef`: the statement that drops a type and the one that creates it. -/
def typeDef (qn : String) : TypeBody → List String
  | .enum labels =>
    [statement "DROP TYPE IF EXISTS " [qn],
      statement "CREATE TYPE " [qn, " AS ENUM (",
        ", ".intercalate (labels.map fun l => "'" ++ escapePGLiteral l ++ "'"), ")"]]
  | .composite attributes =>
    [statement "DROP TYPE IF EXISTS " [qn],
      statement "CREATE TYPE " [qn, " AS (",
        ", ".intercalate (attributes.map fun a => quotePGIdent a.1 ++ " " ++ a.2), ")"]]
  | .domain base default notNull _ =>
    [statement "DROP DOMAIN IF EXISTS " [qn],
      statement "CREATE DOMAIN " [qn, " AS ", base,
        if default = "" then "" else " DEFAULT " ++ default,
        if notNull then " NOT NULL" else ""]]
  | .range options =>
    [statement "DROP TYPE IF EXISTS " [qn],
      statement "CREATE TYPE " [qn, " AS RANGE (", options, ")"]]

def dumpType (t : UserType) : List Piece :=
  Piece.comment ("Type: " ++ t.schema ++ "." ++ t.name) ::
    (typeDef (qualified t.schema t.name) t.body).map Piece.sql ++
    ownerPieces t.body.keyword (qualified t.schema t.name) t.owner ++
    formatGrants ("TYPE " ++ qualified t.schema t.name) t.grants

def addDomainCheck (schema name : String) (c : Constraint) : String :=
  statement "ALTER DOMAIN "
    [qualified schema name, " ADD CONSTRAINT ", quotePGIdent c.name, " ", c.definition]

def getDomainChecks (t : UserType) : List Piece :=
  match t.body with
  | .domain _ _ _ checks => (checks.filter fun c => c.definition ≠ "").map fun c =>
    .sql (addDomainCheck t.schema t.name c)
  | _ => []

def createSequence (s : Sequence) : String :=
  statement "CREATE SEQUENCE IF NOT EXISTS "
    [qualified s.schema s.name, " AS ", s.typ, " ", s.options]

def dumpSequence (s : Sequence) : List Piece :=
  .comment ("Sequence: " ++ s.schema ++ "." ++ s.name) :: .sql (createSequence s) ::
    ownerPieces "SEQUENCE" (qualified s.schema s.name) s.owner

def dumpSequences (cat : Catalogue) : List Piece :=
  (cat.sequences.filter Sequence.standalone).flatMap dumpSequence

def sequenceOwner (s : Sequence) : List Piece :=
  match s.ownedBy with
  | none => []
  | some (table, column) =>
    if table = "" then []
    else [.sql (statement "ALTER SEQUENCE " [qualified s.schema s.name, " OWNED BY ",
      qualified (splitTable table).1 ((splitTable table).2.getD ""), ".", quotePGIdent column])]

def sequenceValue (s : Sequence) : List Piece :=
  match s.lastValue with
  | none => []
  | some (value, called) =>
    [.sql (statement "SELECT pg_catalog.setval('"
      [escapePGLiteral (s.schema ++ "." ++ quotePGIdent s.name), "', ", toString value, ", ",
        if called then "true" else "false", ")"])]

/-- A part of the dump that has a heading of its own where it is not empty. -/
def headed (heading : String) (pieces : List Piece) : List Piece :=
  if pieces = [] then [] else .comment heading :: pieces

def dumpSequenceValues (cat : Catalogue) (options : DumpOptions) : List Piece :=
  if options.schemaOnly then []
  else headed "Sequence ownership and values"
    (cat.sequences.flatMap fun s => sequenceOwner s ++ sequenceValue s)

def viewBody (definition : String) : String := trimSuffix (trimSpace definition) ";"

def createView (v : View) : String :=
  "CREATE OR REPLACE VIEW " ++ qualified v.schema v.name ++ " AS\n" ++ viewBody v.definition ++ ";"

def dumpViews (cat : Catalogue) : List Piece :=
  (cat.views.filter fun v => v.definition ≠ "").flatMap fun v =>
    [Piece.comment ("View: " ++ v.schema ++ "." ++ v.name), .sql (createView v)] ++
    ownerPieces "VIEW" (qualified v.schema v.name) v.owner ++ [Piece.gap]

def createMatview (m : Matview) : String :=
  "CREATE MATERIALIZED VIEW " ++ qualified m.schema m.name ++ " AS\n" ++ viewBody m.definition ++
    "\nWITH NO DATA;"

def dumpMatviews (cat : Catalogue) : List Piece :=
  (cat.matviews.filter fun m => m.definition ≠ "").flatMap fun m =>
    [Piece.comment ("Materialized view: " ++ m.schema ++ "." ++ m.name),
      .sql (statement "DROP MATERIALIZED VIEW IF EXISTS " [qualified m.schema m.name, " CASCADE"]),
      .sql (createMatview m)] ++
    ownerPieces "MATERIALIZED VIEW" (qualified m.schema m.name) m.owner ++ getIndexes m.indexes

def matviewRefreshes (cat : Catalogue) : List Piece :=
  (cat.matviews.filter fun m => m.definition ≠ "" && m.populated).map fun m =>
    .sql (statement "REFRESH MATERIALIZED VIEW " [qualified m.schema m.name])

def commentOn (c : Comment) : String :=
  match c.column with
  | none => "COMMENT ON " ++ c.kind.keyword ++ " " ++ qualified c.schema c.rel ++ " IS '" ++
      escapePGLiteral c.description ++ "';"
  | some column => "COMMENT ON COLUMN " ++ qualified c.schema c.rel ++ "." ++ quotePGIdent column ++
      " IS '" ++ escapePGLiteral c.description ++ "';"

def commentLabel (c : Comment) : String :=
  match c.column with
  | none => "Comment: " ++ c.kind.keyword ++ " " ++ c.schema ++ "." ++ c.rel
  | some column => "Comment: column " ++ c.schema ++ "." ++ c.rel ++ "." ++ column

def dumpComments (cat : Catalogue) : List Piece :=
  cat.comments.flatMap fun c => [.comment (commentLabel c), .sql (commentOn c)]

def grantRelation (kind schema name : String) (grants : List Grant) : List Piece :=
  if grants = [] then []
  else .comment ("ACL: " ++ kind ++ " " ++ schema ++ "." ++ name) ::
    formatGrants ("TABLE " ++ qualified schema name) grants

def routineACL (f : Routine) : List Piece :=
  let kind := if f.isProcedure then "PROCEDURE" else "FUNCTION"
  let target := qualified f.schema f.name ++ "(" ++ f.args ++ ")"
  headed ("ACL: " ++ kind ++ " " ++ f.schema ++ "." ++ f.name ++ "(" ++ f.args ++ ")")
    (ownerPieces kind target f.owner ++ formatGrants (kind ++ " " ++ target) f.grants)

def dumpACLs (cat : Catalogue) (tables : List String) : List Piece :=
  headed "Post-data ACLs (permissions)"
    ((tables.flatMap fun table =>
        match splitTable table with
        | (schema, some name) =>
          grantRelation "TABLE" schema name (cat.relation schema name).grants
        | (_, none) => []) ++
      (cat.views.flatMap fun v => grantRelation "VIEW" v.schema v.name v.grants) ++
      cat.routines.flatMap routineACL)

/-! ### The database -/

def dumpDatabase (cat : Catalogue) (options : DumpOptions) : Option (List Piece) :=
  let included := includedTables cat options
  ((included.mapM (dumpTable cat options)).map TableDump.concat).map fun tables =>
    [Piece.comment ("Database: " ++ cat.dbName)] ++ dumpDrops cat included ++
      dumpSchemas cat options included ++ cat.other.extensionsAndCollations ++
      cat.types.flatMap dumpType ++ cat.other.routines ++
      headed "Domain checks" (cat.types.flatMap getDomainChecks) ++ cat.other.foreignObjects ++
      dumpSequences cat ++ tables.pieces ++ headed "Attach partitions" tables.attach ++
      headed "Foreign keys and exclusion constraints" tables.constraints ++
      dumpViews cat ++ dumpMatviews cat ++ cat.other.tableRoutines ++ cat.other.tableObjects ++
      dumpComments cat ++ cat.other.blobs ++ dumpSequenceValues cat options ++
      dumpACLs cat (included ++ tables.partitionNames) ++ cat.other.privileges ++
      headed "Materialized view data" (matviewRefreshes cat)

/-! ### Quoted names -/

theorem toList_quotePGIdent (name : String) : (quotePGIdent name).toList =
    '"' :: ((name.toList.flatMap fun c => if c = '"' then ['"', '"'] else [c]) ++ ['"']) := by
  unfold quotePGIdent replaceAll
  rw [show "\"".toList = ['"'] from rfl, replaceChars_char, String.toList_append,
    String.toList_append]
  simp

theorem mem_quotePGIdent {name : String} {c : Char} :
    c ∈ (quotePGIdent name).toList ↔ c = '"' ∨ c ∈ name.toList := by
  have doubled : ∀ text : List Char,
      c ∈ (text.flatMap fun d => if d = '"' then ['"', '"'] else [d]) → c = '"' ∨ c ∈ text := by
    intro text member
    obtain ⟨d, inText, inDoubled⟩ := List.mem_flatMap.mp member
    split at inDoubled
    · exact .inl (by simpa using inDoubled)
    · exact .inr (by rwa [List.mem_singleton.mp inDoubled])
  rw [toList_quotePGIdent, List.mem_cons, List.mem_append, List.mem_singleton]
  constructor
  · rintro (isQuote | inName | isQuote)
    · exact .inl isQuote
    · exact doubled _ inName
    · exact .inl isQuote
  · rintro (isQuote | inName)
    · exact .inl isQuote
    · refine .inr (.inl (List.mem_flatMap.mpr ⟨c, inName, ?_⟩))
      split
      · rename_i isQuote
        rw [isQuote]
        exact List.mem_cons_self
      · exact List.mem_singleton_self c

/-! ### Parts that are dumped one after another -/

theorem mapM_some_forall {α β : Type} {f : α → Option β} {Holds : β → Prop} {items : List α}
    {results : List β} (all : items.mapM f = some results)
    (each : ∀ item ∈ items, ∀ result, f item = some result → Holds result) :
    ∀ result ∈ results, Holds result := by
  induction items generalizing results with
  | nil =>
    simp only [List.mapM_nil] at all
    rw [← Option.some.inj all]
    simp
  | cons item rest ih =>
    rw [List.mapM_cons] at all
    obtain ⟨first, isFirst, later⟩ := Option.bind_eq_some_iff.mp all
    obtain ⟨others, isRest, joined⟩ := Option.bind_eq_some_iff.mp later
    rw [← Option.some.inj joined]
    intro result member
    rcases List.mem_cons.mp member with rfl | inOthers
    · exact each item List.mem_cons_self _ isFirst
    · exact ih isRest
        (List.forall_mem_cons.mp each).2 result inOthers

end DbBackup.Engine.Postgres.Dumper
