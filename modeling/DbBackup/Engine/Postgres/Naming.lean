import DbBackup.Engine.Postgres.Filter
import DbBackup.Engine.Postgres.StatementNames

/-!
Owns whether the statements of a dump name the relation they are for.

A table's schema and name travel as one text with a dot between them, which the dumpers cut
at its first dot. A sequence's `setval` has the schema without quotes. Views, materialized
views and partitions keep schema and name apart and quote both.

Contract: `namesSurvive_iff`.

Does not own index definitions, which the server writes.
-/

set_option linter.all false

namespace DbBackup.Engine.Postgres.Naming

open Engine.Postgres.Dumper Engine.Postgres.Filter Engine.Postgres.StatementNames
  Engine.Postgres.Stream Lib.GoString Lib.SqlName

/-! ### The statements for a relation -/

inductive Kind where
  | table
  | partition
  | sequence
  | view
  | matview
deriving DecidableEq

/-- What `getCreateTable`, `tableOwner`, `copyData` and `lateConstraints` write about the table
itself. -/
def relationStatements (cat : Catalogue) (schema name : String) : List Piece :=
  let r := cat.relation schema name
  [Piece.sql (statement "DROP TABLE IF EXISTS " [qualified schema name]),
    .sql (createTable schema name r)] ++ getPrimaryKey schema name r ++
    getUniqueConstraints schema name r ++ getCheckConstraints schema name r ++
    tableOwner cat schema name ++ copyData cat schema name ++ lateConstraints cat schema name

/-- The statement of `dumpDrops`. -/
def dropTable (table : String) : List Piece :=
  ((splitTable table).2.map fun name =>
    .sql (statement "DROP TABLE IF EXISTS "
      [qualified (splitTable table).1 name, " CASCADE"])).toList

def sequenceStatements (s : Sequence) : List Piece :=
  [Piece.sql (statement "DROP SEQUENCE IF EXISTS " [qualified s.schema s.name, " CASCADE"]),
    .sql (createSequence s)] ++ ownerPieces "SEQUENCE" (qualified s.schema s.name) s.owner ++
    sequenceOwner s ++ sequenceValue s

def viewStatements (v : View) : List Piece :=
  .sql (createView v) :: ownerPieces "VIEW" (qualified v.schema v.name) v.owner

def matviewStatements (m : Matview) : List Piece :=
  [Piece.sql (statement "DROP MATERIALIZED VIEW IF EXISTS "
      [qualified m.schema m.name, " CASCADE"]),
    .sql (createMatview m)] ++
    ownerPieces "MATERIALIZED VIEW" (qualified m.schema m.name) m.owner

/-- The piece is written for this relation. A table goes by the text `listTables` returns. -/
def EmittedFor (cat : Catalogue) (kind : Kind) (schema name : String) (piece : Piece) : Prop :=
  match kind with
  | .table =>
    piece ∈ dropTable (tableName schema name) ++
      relationStatements cat (splitTable (tableName schema name)).1 (bareName schema name)
  | .partition =>
    piece ∈ relationStatements cat schema name ∨
      ∃ parentSchema parent bound,
        ⟨schema, name, bound⟩ ∈ cat.partitions parentSchema parent ∧
          piece = .sql (createPartition parentSchema parent ⟨schema, name, bound⟩)
  | .sequence =>
    ∃ s ∈ cat.sequences, s.schema = schema ∧ s.name = name ∧ piece ∈ sequenceStatements s
  | .view => ∃ v ∈ cat.views, v.schema = schema ∧ v.name = name ∧ piece ∈ viewStatements v
  | .matview =>
    ∃ m ∈ cat.matviews, m.schema = schema ∧ m.name = name ∧ piece ∈ matviewStatements m

def isStatement : Piece → Bool
  | .sql _ => true
  | .copy _ _ => true
  | _ => false

/-- In every dump, what is written for the relation names it. -/
def NamesSurvive (kind : Kind) (schema name : ObjectName) : Prop :=
  ∀ cat options pieces, dumpDatabase cat options = some pieces → ∀ piece ∈ pieces,
    EmittedFor cat kind schema.text name.text piece → isStatement piece = true →
      pieceNamed piece = some (schema.text.toList, name.text.toList)

/-- A table's schema has no dot. A sequence's schema reads the same without quotes. -/
def SchemaKept (kind : Kind) (schema : ObjectName) : Prop :=
  match kind with
  | .table => '.' ∉ schema.text.toList
  | .sequence => Plain schema.text.toList
  | _ => True

/-! ### Statements that quote both parts -/

/-- The text names the relation behind a keyword, and goes on with something else than a quote. -/
def NamesIt (text : List Char) (schema name : ObjectName) : Prop :=
  ∃ keyword ∈ keywords, ∃ only, (only = [] ∨ only = "ONLY ".toList) ∧ ∃ next tail, next ≠ '"' ∧
    text = keyword.toList ++ (only ++ ((qualified schema.text name.text).toList ++ next :: tail))

theorem NamesIt.relationNamed {text : List Char} {schema name : ObjectName}
    (names : NamesIt text schema name) :
    relationNamed text = some (schema.text.toList, name.text.toList) := by
  obtain ⟨keyword, isKeyword, only, onlyForm, next, tail, notQuote, rfl⟩ := names
  have apart : Apart (next :: tail) := fun same => notQuote (Option.some.inj same)
  have read := readQualified_qualified schema.toList_ne_nil name.toList_ne_nil apart
  rw [relationNamed_append isKeyword]
  rcases onlyForm with rfl | rfl
  · rw [List.nil_append]
    exact read
  · rw [toList_qualified, List.append_assoc, skipOnly_quoted] at read
    rw [skipOnly_only, toList_qualified, List.append_assoc]
    exact read

theorem NamesIt.pieceNamed_sql {text : String} {schema name : ObjectName}
    (names : NamesIt text.toList schema name) :
    pieceNamed (.sql text) = some (schema.text.toList, name.text.toList) := by
  have read := names.relationNamed
  obtain ⟨keyword, isKeyword, only, -, next, tail, -, shape⟩ := names
  rw [pieceNamed, shape, setvalNamed_keyword isKeyword, Option.none_or, ← shape, read]

theorem NamesIt.append {text : String} {schema name : ObjectName}
    (names : NamesIt text.toList schema name) (more : String) :
    NamesIt (text ++ more).toList schema name := by
  obtain ⟨keyword, isKeyword, only, onlyForm, next, tail, notQuote, shape⟩ := names
  refine ⟨keyword, isKeyword, only, onlyForm, next, tail ++ more.toList, notQuote, ?_⟩
  rw [String.toList_append, shape, List.append_assoc, List.append_assoc, List.append_assoc,
    List.cons_append]

/-- A keyword and the name, and the first mark behind it. -/
theorem namesIt_start {keyword : String} (isKeyword : keyword ∈ keywords)
    (schema name : ObjectName) {start : String} {next : Char} {rest : List Char}
    (isStart : start.toList = next :: rest) (notQuote : next ≠ '"') :
    NamesIt (keyword ++ qualified schema.text name.text ++ start).toList schema name := by
  refine ⟨keyword, isKeyword, [], .inl rfl, next, rest, notQuote, ?_⟩
  rw [String.toList_append, String.toList_append, isStart, List.nil_append, List.append_assoc]

theorem namesIt_statement {keyword : String} (isKeyword : keyword ∈ keywords)
    (schema name : ObjectName) {start : String} {next : Char} {rest : List Char}
    (isStart : start.toList = next :: rest) (notQuote : next ≠ '"') (parts : List String) :
    NamesIt (statement keyword (qualified schema.text name.text :: start :: parts)).toList
      schema name := by
  have shape : statement keyword (qualified schema.text name.text :: start :: parts) =
      keyword ++ qualified schema.text name.text ++ start ++ String.join parts ++ ";" := by
    rw [statement, String.join_cons, String.join_cons, ← String.append_assoc,
      ← String.append_assoc]
  rw [shape]
  exact ((namesIt_start isKeyword schema name isStart notQuote).append _).append _

theorem namesIt_bare {keyword : String} (isKeyword : keyword ∈ keywords)
    (schema name : ObjectName) :
    NamesIt (statement keyword [qualified schema.text name.text]).toList schema name := by
  have shape : statement keyword [qualified schema.text name.text] =
      keyword ++ qualified schema.text name.text ++ ";" := by
    rw [statement, String.join_cons, String.join_nil, String.append_empty]
  rw [shape]
  exact @namesIt_start keyword isKeyword schema name ";" ';' [] (by decide) (by decide)

theorem namesIt_constraint {only : String} (onlyForm : only = "" ∨ only = "ONLY ")
    (schema name : ObjectName) (c : Constraint) :
    NamesIt (addConstraint only schema.text name.text c).toList schema name := by
  have start : NamesIt ("ALTER TABLE " ++ only ++ qualified schema.text name.text ++
      " ADD CONSTRAINT ").toList schema name := by
    refine ⟨"ALTER TABLE ", by decide, only.toList, ?_, ' ', "ADD CONSTRAINT ".toList,
      by decide, ?_⟩
    · rcases onlyForm with rfl | rfl
      · exact .inl (by decide)
      · exact .inr rfl
    · have mark : " ADD CONSTRAINT ".toList = ' ' :: "ADD CONSTRAINT ".toList := by decide
      rw [String.toList_append, String.toList_append, String.toList_append, mark,
        List.append_assoc, List.append_assoc]
  have shape : addConstraint only schema.text name.text c =
      "ALTER TABLE " ++ only ++ qualified schema.text name.text ++ " ADD CONSTRAINT " ++
        String.join [quotePGIdent c.name, " ", c.definition] ++ ";" := by
    rw [addConstraint, statement, String.join_cons, String.join_cons, String.join_cons,
      ← String.append_assoc, ← String.append_assoc, ← String.append_assoc]
  rw [shape]
  exact (start.append _).append _

theorem namesIt_cascade {keyword : String} (isKeyword : keyword ∈ keywords)
    (schema name : ObjectName) :
    NamesIt (statement keyword [qualified schema.text name.text, " CASCADE"]).toList schema name :=
  @namesIt_statement _ isKeyword schema name " CASCADE" ' ' "CASCADE".toList (by decide)
    (by decide) []

theorem namesIt_owner {kind : String} (isKeyword : "ALTER " ++ kind ++ " " ∈ keywords)
    (schema name : ObjectName) (owner : String) :
    NamesIt (alterOwner kind (qualified schema.text name.text) owner).toList schema name :=
  @namesIt_statement _ isKeyword schema name " OWNER TO " ' ' "OWNER TO ".toList (by decide)
    (by decide) [quotePGRole owner]

theorem namesIt_createTable (schema name : ObjectName) (r : Relation) :
    NamesIt (createTable schema.text name.text r).toList schema name := by
  have start := @namesIt_start "CREATE TABLE " (by decide) schema name " (" ' ' ['('] (by decide)
    (by decide)
  exact ((((start.append _).append _).append _).append _).append _

/-! ### Every statement of a relation -/

/-- The pieces that are statements name the relation. -/
def AllNamed (pieces : List Piece) (schema name : ObjectName) : Prop :=
  ∀ piece ∈ pieces, isStatement piece = true →
    pieceNamed piece = some (schema.text.toList, name.text.toList)

theorem allNamed_append {first second : List Piece} {schema name : ObjectName}
    (firstNamed : AllNamed first schema name) (secondNamed : AllNamed second schema name) :
    AllNamed (first ++ second) schema name := by
  intro piece member
  rcases List.mem_append.mp member with inFirst | inSecond
  · exact firstNamed piece inFirst
  · exact secondNamed piece inSecond

theorem allNamed_nil (schema name : ObjectName) : AllNamed [] schema name :=
  fun _ member => absurd member List.not_mem_nil

theorem allNamed_sql {text : String} {rest : List Piece} {schema name : ObjectName}
    (names : NamesIt text.toList schema name) (restNamed : AllNamed rest schema name) :
    AllNamed (.sql text :: rest) schema name := by
  intro piece member
  rcases List.mem_cons.mp member with rfl | inRest
  · exact fun _ => names.pieceNamed_sql
  · exact restNamed piece inRest

theorem allNamed_constraints {only : String} (onlyForm : only = "" ∨ only = "ONLY ")
    (schema name : ObjectName) (cs : List Constraint) :
    AllNamed (constraints only schema.text name.text cs) schema name := by
  intro piece member
  obtain ⟨c, -, rfl⟩ := List.mem_map.mp member
  exact fun _ => (namesIt_constraint onlyForm schema name c).pieceNamed_sql

theorem allNamed_ownerPieces {kind : String} (isKeyword : "ALTER " ++ kind ++ " " ∈ keywords)
    (schema name : ObjectName) (owner : String) :
    AllNamed (ownerPieces kind (qualified schema.text name.text) owner) schema name := by
  rw [ownerPieces]
  split
  · exact allNamed_nil schema name
  · exact allNamed_sql (namesIt_owner isKeyword schema name owner) (allNamed_nil schema name)

variable (cat : Catalogue)

theorem allNamed_tableOwner (schema name : ObjectName) :
    AllNamed (tableOwner cat schema.text name.text) schema name := by
  rw [tableOwner]
  split
  · exact allNamed_nil schema name
  · refine allNamed_sql (namesIt_owner (by decide) schema name _) ?_
    intro piece member isSql
    rw [List.mem_singleton.mp member] at isSql
    exact nomatch isSql

theorem allNamed_copyData (schema name : ObjectName) :
    AllNamed (copyData cat schema.text name.text) schema name := by
  intro piece member isSql
  rcases List.mem_cons.mp member with rfl | isGap
  · have start := @namesIt_start "COPY " (by decide) schema name " (" ' ' ['('] (by decide)
      (by decide)
    exact ((start.append _).append _).relationNamed
  · rw [List.mem_singleton.mp isGap] at isSql
    exact nomatch isSql

theorem allNamed_relationStatements (schema name : ObjectName) :
    AllNamed (relationStatements cat schema.text name.text) schema name := by
  have late : AllNamed (lateConstraints cat schema.text name.text) schema name := by
    refine allNamed_append (allNamed_constraints ?_ schema name _)
      (allNamed_constraints (.inr rfl) schema name _)
    split
    · exact .inl rfl
    · exact .inr rfl
  have created : AllNamed [.sql (statement "DROP TABLE IF EXISTS " [qualified schema.text name.text]),
      .sql (createTable schema.text name.text (cat.relation schema.text name.text))] schema name :=
    allNamed_sql (namesIt_bare (by decide) schema name)
      (allNamed_sql (namesIt_createTable schema name _) (allNamed_nil schema name))
  have withKeys := allNamed_append (allNamed_append (allNamed_append created
    (allNamed_constraints (.inr rfl) schema name
      (cat.relation schema.text name.text).primaryKey.toList))
    (allNamed_constraints (.inr rfl) schema name
      (cat.relation schema.text name.text).uniqueConstraints))
    (allNamed_constraints (.inr rfl) schema name
      (cat.relation schema.text name.text).checkConstraints)
  exact allNamed_append (allNamed_append (allNamed_append withKeys
    (allNamed_tableOwner cat schema name)) (allNamed_copyData cat schema name)) late

theorem allNamed_viewStatements {v : View} {schema name : ObjectName}
    (isSchema : v.schema = schema.text) (isName : v.name = name.text) :
    AllNamed (viewStatements v) schema name := by
  obtain ⟨_, _, definition, owner, grants⟩ := v
  subst isSchema isName
  refine allNamed_sql ?_ (allNamed_ownerPieces (by decide) schema name _)
  have start := @namesIt_start "CREATE OR REPLACE VIEW " (by decide) schema name " AS\n" ' '
    "AS\n".toList (by decide) (by decide)
  exact (start.append _).append _

theorem allNamed_matviewStatements {m : Matview} {schema name : ObjectName}
    (isSchema : m.schema = schema.text) (isName : m.name = name.text) :
    AllNamed (matviewStatements m) schema name := by
  obtain ⟨_, _, owner, definition, populated, indexes⟩ := m
  subst isSchema isName
  refine allNamed_append (allNamed_sql (namesIt_cascade (by decide) schema name)
    (allNamed_sql ?_ (allNamed_nil schema name))) (allNamed_ownerPieces (by decide) schema name _)
  have start := @namesIt_start "CREATE MATERIALIZED VIEW " (by decide) schema name " AS\n" ' '
    "AS\n".toList (by decide) (by decide)
  exact (start.append _).append _

theorem allNamed_table {schema name : ObjectName} (noDot : '.' ∉ schema.text.toList)
    (cat : Catalogue) :
    AllNamed (dropTable (tableName schema.text name.text) ++
      relationStatements cat (splitTable (tableName schema.text name.text)).1
        (bareName schema.text name.text)) schema name := by
  have cut := splitTable_tableName name.text noDot
  rw [dropTable, bareName_eq name.text noDot, cut]
  exact allNamed_append (allNamed_sql (namesIt_cascade (by decide) schema name)
    (allNamed_nil schema name)) (allNamed_relationStatements cat schema name)

theorem allNamed_partition {cat : Catalogue} {schema name : ObjectName} {piece : Piece}
    (emitted : EmittedFor cat .partition schema.text name.text piece)
    (isSql : isStatement piece = true) :
    pieceNamed piece = some (schema.text.toList, name.text.toList) := by
  rcases emitted with own | ⟨parentSchema, parent, bound, -, rfl⟩
  · exact allNamed_relationStatements cat schema name piece own isSql
  · exact (@namesIt_statement "CREATE TABLE " (by decide) schema name " PARTITION OF " ' '
      "PARTITION OF ".toList (by decide) (by decide) _).pieceNamed_sql

/-! ### Sequences -/

/-- What `setval` names is what its literal says. -/
theorem pieceNamed_setval (schema name : String) (parts : List String) :
    pieceNamed (.sql (statement setvalStart
      (escapePGLiteral (schema ++ "." ++ quotePGIdent name) :: "', " :: parts))) =
      readRegclass (bareQualified schema.toList name.toList) := by
  obtain ⟨tail, shape⟩ : ∃ tail, (statement setvalStart
      (escapePGLiteral (schema ++ "." ++ quotePGIdent name) :: "', " :: parts)).toList =
        setvalStart.toList ++
          ((escapePGLiteral (schema ++ "." ++ quotePGIdent name)).toList ++ '\'' :: ',' :: tail) := by
    have comma : "', ".toList = ['\'', ',', ' '] := by decide
    refine ⟨' ' :: ((String.join parts).toList ++ ";".toList), ?_⟩
    rw [statement, String.join_cons, String.join_cons, String.toList_append, String.toList_append,
      String.toList_append, String.toList_append, comma, List.append_assoc, List.append_assoc,
      List.append_assoc]
    rfl
  rw [pieceNamed, shape, setvalNamed_literal, relationNamed_setval, Option.or_none]

theorem allNamed_sequenceOwner (s : Sequence) {schema name : ObjectName}
    (isSchema : s.schema = schema.text) (isName : s.name = name.text) :
    AllNamed (sequenceOwner s) schema name := by
  rw [sequenceOwner]
  split
  · exact allNamed_nil schema name
  · split
    · exact allNamed_nil schema name
    · rw [isSchema, isName]
      exact allNamed_sql (@namesIt_statement "ALTER SEQUENCE " (by decide) schema name
        " OWNED BY " ' ' "OWNED BY ".toList (by decide) (by decide) _) (allNamed_nil schema name)

theorem allNamed_sequenceValue (s : Sequence) {schema name : ObjectName}
    (isSchema : s.schema = schema.text) (isName : s.name = name.text)
    (plain : Plain schema.text.toList) : AllNamed (sequenceValue s) schema name := by
  rw [sequenceValue]
  split
  · exact allNamed_nil schema name
  · intro piece member _
    rw [List.mem_singleton.mp member, isSchema, isName]
    exact (pieceNamed_setval schema.text name.text _).trans
      (readRegclass_of_plain schema.toList_ne_nil plain name.text.toList)

theorem allNamed_sequenceStatements (s : Sequence) {schema name : ObjectName}
    (isSchema : s.schema = schema.text) (isName : s.name = name.text)
    (plain : Plain schema.text.toList) : AllNamed (sequenceStatements s) schema name := by
  have owned := allNamed_sequenceOwner s isSchema isName
  have valued := allNamed_sequenceValue s isSchema isName plain
  refine allNamed_append (allNamed_append (allNamed_append ?_ ?_) owned) valued
  · rw [createSequence, isSchema, isName]
    exact allNamed_sql (namesIt_cascade (by decide) schema name)
      (allNamed_sql (@namesIt_statement "CREATE SEQUENCE IF NOT EXISTS " (by decide) schema name
        " AS " ' ' "AS ".toList (by decide) (by decide) _) (allNamed_nil schema name))
  · rw [isSchema, isName]
    exact allNamed_ownerPieces (by decide) schema name s.owner

/-! ### Dumps with one relation -/

def oneTable (table : String) : Catalogue := { dbName := "shop", tables := [table] }

theorem includedTables_oneTable (table : String) : includedTables (oneTable table) {} = [table] :=
  List.mergeSort_singleton _

theorem dropped_oneTable {table : String} {piece : Piece} (isDrop : piece ∈ dropTable table) :
    ∃ pieces, dumpDatabase (oneTable table) {} = some pieces ∧ piece ∈ pieces := by
  obtain ⟨dump, isDump⟩ : ∃ dump, dumpTable (oneTable table) {} table = some dump := ⟨_, rfl⟩
  have inDrops : piece ∈ dumpDrops (oneTable table) [table] := by
    obtain ⟨name, isName, rfl⟩ := Option.map_eq_some_iff.mp (Option.mem_toList.mp isDrop)
    rw [dumpDrops]
    refine List.mem_cons_of_mem _ (List.mem_append_left _ (List.mem_append_left _
      (List.mem_append_left _ (List.mem_filterMap.mpr ⟨table, List.mem_singleton_self table, ?_⟩))))
    rw [isName]
    rfl
  rw [dumpDatabase, includedTables_oneTable]
  simp only [List.mapM_cons, isDump, List.mapM_nil]
  refine ⟨_, rfl, ?_⟩
  simp only [List.mem_append]
  grind

def oneSequence (schema name : String) : Catalogue :=
  { dbName := "shop",
    sequences := [{ schema := schema, name := name, lastValue := some (7, true) }] }

def setvalPiece (schema name : String) : Piece :=
  .sql (statement setvalStart
    [escapePGLiteral (schema ++ "." ++ quotePGIdent name), "', ", toString (7 : Int), ", ", "true",
      ")"])

theorem setval_oneSequence (schema name : String) :
    ∃ pieces, dumpDatabase (oneSequence schema name) {} = some pieces ∧
      setvalPiece schema name ∈ pieces := by
  have valued : setvalPiece schema name ∈ dumpSequenceValues (oneSequence schema name) {} :=
    List.mem_cons_of_mem _ List.mem_cons_self
  have noTables : includedTables (oneSequence schema name) {} = [] := List.mergeSort_nil
  rw [dumpDatabase, noTables, List.mapM_nil]
  refine ⟨_, rfl, ?_⟩
  simp only [List.mem_append]
  grind

theorem emitted_setval (schema name : String) :
    EmittedFor (oneSequence schema name) .sequence schema name (setvalPiece schema name) :=
  ⟨_, List.mem_singleton_self _, rfl, rfl, List.mem_append_right _ (List.mem_singleton_self _)⟩

/-! ### Main results -/

/-- With a dot in the schema, the table's DROP names another schema. -/
theorem not_namesSurvive_dotted {schema name : ObjectName} (dotted : '.' ∈ schema.text.toList) :
    ¬ NamesSurvive .table schema name := by
  intro survive
  obtain ⟨first, rest, shape, cut⟩ := splitTable_dotted name.text dotted
  have isSome := splitTable_isSome schema.text name.text
  have isDrop : Piece.sql (statement "DROP TABLE IF EXISTS "
      [qualified (String.ofList first) (bareName schema.text name.text), " CASCADE"]) ∈
      dropTable (tableName schema.text name.text) := by
    rw [dropTable, isSome, cut]
    exact List.mem_singleton_self _
  obtain ⟨pieces, isDump, member⟩ := dropped_oneTable isDrop
  have named := survive _ _ pieces isDump _ member (List.mem_append_left _ isDrop) rfl
  obtain ⟨tail, text⟩ : ∃ tail, (statement "DROP TABLE IF EXISTS "
      [qualified (String.ofList first) (bareName schema.text name.text), " CASCADE"]).toList =
      "DROP TABLE IF EXISTS ".toList ++
        ((qualified (String.ofList first) (bareName schema.text name.text)).toList ++ tail) := by
    refine ⟨(String.join [" CASCADE"]).toList ++ ";".toList, ?_⟩
    rw [statement, String.join_cons, String.toList_append, String.toList_append,
      String.toList_append, List.append_assoc, List.append_assoc]
  rw [pieceNamed, text, setvalNamed_keyword (by decide), Option.none_or] at named
  have same := schema_of_relationNamed (by decide) named
  rw [shape, String.toList_ofList, String.toList_ofList] at same
  have lengths := congrArg List.length same
  rw [List.length_append, List.length_cons] at lengths
  omega

theorem not_namesSurvive_setval {schema : ObjectName} (name : ObjectName)
    (notPlain : ¬ Plain schema.text.toList) : ¬ NamesSurvive .sequence schema name := by
  intro survive
  obtain ⟨pieces, isDump, member⟩ := setval_oneSequence schema.text name.text
  have named := survive _ _ pieces isDump _ member (emitted_setval schema.text name.text) rfl
  rw [setvalPiece, pieceNamed_setval] at named
  exact notPlain ((readRegclass_bare_iff schema.toList_ne_nil name.text.toList).mp named)

/-- Every statement of a relation names it exactly when its schema is kept on the way: no dot in
a table's schema, and for a sequence a schema that `regclass` reads the same without quotes. -/
theorem namesSurvive_iff (kind : Kind) (schema name : ObjectName) :
    NamesSurvive kind schema name ↔ SchemaKept kind schema := by
  constructor
  · intro survive
    cases kind with
    | table => exact fun dotted => not_namesSurvive_dotted dotted survive
    | sequence =>
      by_contra notPlain
      exact not_namesSurvive_setval name notPlain survive
    | partition => exact trivial
    | view => exact trivial
    | matview => exact trivial
  · intro kept cat options pieces _ piece _ emitted isSql
    cases kind with
    | table => exact allNamed_table kept cat piece emitted isSql
    | partition => exact allNamed_partition emitted isSql
    | sequence =>
      obtain ⟨s, -, isSchema, isName, member⟩ := emitted
      exact allNamed_sequenceStatements s isSchema isName kept piece member isSql
    | view =>
      obtain ⟨v, -, isSchema, isName, member⟩ := emitted
      exact allNamed_viewStatements isSchema isName piece member isSql
    | matview =>
      obtain ⟨m, -, isSchema, isName, member⟩ := emitted
      exact allNamed_matviewStatements isSchema isName piece member isSql

def dottedSchema : ObjectName := ⟨"a.b", by decide⟩

def tableT : ObjectName := ⟨"t", by decide⟩

/-- The table `t` of the schema `a.b` is dropped, created and loaded as `"a"."b.t"`. -/
theorem dotted_named_other :
    ¬ NamesSurvive .table dottedSchema tableT ∧
      (dropTable (tableName dottedSchema.text tableT.text)).map pieceNamed =
        [some ("a".toList, "b.t".toList)] :=
  ⟨not_namesSurvive_dotted (by decide), by decide +kernel⟩

end DbBackup.Engine.Postgres.Naming
