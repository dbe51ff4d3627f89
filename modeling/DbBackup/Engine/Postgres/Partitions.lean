import DbBackup.Engine.Postgres.Filter
import DbBackup.Engine.Postgres.StatementNames

/-!
Owns the dump of partitioned tables: which relations it creates, which rows it copies and
which partitions it attaches.

A forest of tables is what the catalogue says: the tables that are not partitions are listed,
and every relation has one place below them, at most eight levels deep.

Contract: what `dumpPartitions` writes below a table, by induction over the levels
(`Forest.dumpPartitions_below`).
-/

set_option linter.all false

namespace DbBackup.Engine.Postgres.Partitions

open Engine.Postgres.Dumper Engine.Postgres.Filter Engine.Postgres.StatementNames
  Engine.Postgres.Stream Lib.GoString Lib.SqlName

/-! ### What the statements say -/

/-- A schema and a name. -/
abbrev Rel := String × String

def nameOf (r : Rel) : RelName := (r.1.toList, r.2.toList)

def PartRef.rel (p : PartRef) : Rel := (p.schema, p.name)

/-- The relation a piece creates. -/
def created : Piece → Option RelName
  | .sql text =>
    (after "CREATE TABLE ".toList text.toList).bind fun rest =>
      (readQualified rest).map Prod.fst
  | _ => none

/-- The relation a piece copies rows into, and the rows. -/
def copied : Piece → Option (RelName × List String)
  | .copy header rows =>
    (after "COPY ".toList header.toList).bind fun rest =>
      (readQualified rest).map fun read => (read.1, rows)
  | _ => none

/-- The partition a piece attaches, after its parent. -/
def attached : Piece → Option (RelName × RelName)
  | .sql text =>
    (after "ALTER TABLE ONLY ".toList text.toList).bind fun rest =>
      (readQualified rest).bind fun parent =>
        (after " ATTACH PARTITION ".toList parent.2).bind fun part =>
          (readQualified part).map fun read => (parent.1, read.1)
  | _ => none

def createdIn (pieces : List Piece) : List RelName := pieces.filterMap created

def copiedIn (pieces : List Piece) : List (RelName × List String) := pieces.filterMap copied

def attachedIn (pieces : List Piece) : List (RelName × RelName) := pieces.filterMap attached

/-! ### The forest -/

/-- The relations below a table, at most so many levels. -/
def descendants (cat : Catalogue) : Nat → Rel → List Rel
  | 0, _ => []
  | levels + 1, r =>
    (cat.partitions r.1 r.2).flatMap fun p => PartRef.rel p :: descendants cat levels (PartRef.rel p)

/-- Each partition with its parent, at most so many levels. -/
def edges (cat : Catalogue) : Nat → Rel → List (Rel × Rel)
  | 0, _ => []
  | levels + 1, r =>
    (cat.partitions r.1 r.2).flatMap fun p =>
      edges cat levels (PartRef.rel p) ++ [(r, PartRef.rel p)]

/-- There are at most so many levels below the table. -/
def Shallow (cat : Catalogue) : Nat → Rel → Prop
  | 0, r => cat.partitions r.1 r.2 = []
  | levels + 1, r => ∀ p ∈ cat.partitions r.1 r.2, Shallow cat levels (PartRef.rel p)

/-- The tables with everything below them. -/
def relations (cat : Catalogue) (roots : List Rel) : List Rel :=
  roots.flatMap fun r => r :: descendants cat 8 r

def Named (r : Rel) : Prop := r.1.toList ≠ [] ∧ r.2.toList ≠ []

/-- The parts of a catalogue that the server vouches for. -/
structure Readable (cat : Catalogue) : Prop where
  partNamed : ∀ s t, ∀ p ∈ cat.partitions s t, Named (PartRef.rel p)
  /-- Only a partitioned table has partitions. -/
  parents : ∀ s t, cat.partitions s t ≠ [] → (cat.relation s t).isPartitioned = true
  /-- `pg_get_indexdef`. -/
  indexes : ∀ s t, ∀ definition ∈ (cat.relation s t).indexes,
    (∃ rest, definition = "CREATE INDEX " ++ rest) ∨
      ∃ rest, definition = "CREATE UNIQUE INDEX " ++ rest

/-- A catalogue as the server has it. -/
structure Forest where
  cat : Catalogue
  /-- The tables that are not partitions; `listTables` returns them. -/
  roots : List Rel
  listed : cat.tables = roots.map fun r => tableName r.1 r.2
  notPartition : ∀ s t, ∀ p ∈ cat.partitions s t, PartRef.rel p ∉ roots
  once : (relations cat roots).Nodup
  shallow : ∀ r ∈ roots, Shallow cat 8 r
  rootNamed : ∀ r ∈ roots, Named r
  readable : Readable cat

/-! ### Readings of single pieces -/

theorem readQualified_named {r : Rel} (named : Named r) {tail : List Char} (apart : Apart tail) :
    readQualified ((qualified r.1 r.2).toList ++ tail) = some (nameOf r, tail) := by
  rw [toList_qualified, readQualified_quoted named.1 named.2 apart]
  rfl

/-- A statement that begins with other words creates nothing. -/
theorem created_other {keyword : String} (apart : ¬ "CREATE TABLE ".toList <+: keyword.toList ∧
    ¬ keyword.toList <+: "CREATE TABLE ".toList) (rest : String) :
    created (.sql (keyword ++ rest)) = none := by
  rw [created, String.toList_append, after_other rest.toList apart]
  rfl

theorem created_statement {keyword : String} (apart : ¬ "CREATE TABLE ".toList <+: keyword.toList ∧
    ¬ keyword.toList <+: "CREATE TABLE ".toList) (parts : List String) :
    created (.sql (statement keyword parts)) = none := by
  rw [statement, String.append_assoc]
  exact created_other apart _

theorem alterTable_apart : ¬ "CREATE TABLE ".toList <+: "ALTER TABLE ".toList ∧
    ¬ "ALTER TABLE ".toList <+: "CREATE TABLE ".toList := by
  decide

theorem dropTable_apart : ¬ "CREATE TABLE ".toList <+: "DROP TABLE IF EXISTS ".toList ∧
    ¬ "DROP TABLE IF EXISTS ".toList <+: "CREATE TABLE ".toList := by
  decide

theorem index_apart : ¬ "CREATE TABLE ".toList <+: "CREATE INDEX ".toList ∧
    ¬ "CREATE INDEX ".toList <+: "CREATE TABLE ".toList := by
  decide

theorem uniqueIndex_apart : ¬ "CREATE TABLE ".toList <+: "CREATE UNIQUE INDEX ".toList ∧
    ¬ "CREATE UNIQUE INDEX ".toList <+: "CREATE TABLE ".toList := by
  decide

/-- The text creates the relation: its name stands behind the keyword, and a blank behind it. -/
def Creates (text : String) (r : Rel) : Prop :=
  ∃ tail, text.toList = "CREATE TABLE ".toList ++ ((qualified r.1 r.2).toList ++ ' ' :: tail)

theorem Creates.append {text : String} {r : Rel} (creates : Creates text r) (more : String) :
    Creates (text ++ more) r := by
  obtain ⟨tail, shape⟩ := creates
  refine ⟨tail ++ more.toList, ?_⟩
  rw [String.toList_append, shape, List.append_assoc, List.append_assoc, List.cons_append]

variable {text : String}

theorem Creates.created {r : Rel} (creates : Creates text r) (named : Named r) :
    created (.sql text) = some (nameOf r) := by
  obtain ⟨tail, shape⟩ := creates
  have apart : Apart (' ' :: tail) := fun same => absurd (Option.some.inj same) (by decide)
  rw [Partitions.created, shape, after_append, Option.bind_some, readQualified_named named apart]
  rfl

/-- What is read has the schema that was written, also where a part is empty. -/
theorem Creates.schema {r : Rel} (creates : Creates text r) {named : RelName}
    (read : Partitions.created (.sql text) = some named) : named.1 = r.1.toList := by
  obtain ⟨tail, shape⟩ := creates
  rw [Partitions.created, shape, after_append, Option.bind_some, toList_qualified,
    List.append_assoc] at read
  exact schema_of_readQualified read

/-- A name with an empty part is not read. -/
theorem Creates.unread {r : Rel} (creates : Creates text r) (unnamed : ¬ Named r) :
    Partitions.created (.sql text) = none := by
  obtain ⟨tail, shape⟩ := creates
  have unread : readQualified ((qualified r.1 r.2).toList ++ ' ' :: tail) = none := by
    rw [toList_qualified, List.append_assoc, List.cons_append]
    refine readQualified_quoted_empty ?_ (by simp)
    rw [Named] at unnamed
    by_cases isEmpty : r.1.toList = []
    · exact .inl isEmpty
    · exact .inr (by_contra fun notEmpty => unnamed ⟨isEmpty, notEmpty⟩)
  rw [Partitions.created, shape, after_append, Option.bind_some, unread]
  rfl

theorem creates_start {start : String} {rest : List Char} (blank : start.toList = ' ' :: rest)
    (r : Rel) : Creates ("CREATE TABLE " ++ qualified r.1 r.2 ++ start) r := by
  refine ⟨rest, ?_⟩
  rw [String.toList_append, String.toList_append, blank, List.append_assoc]

theorem creates_createTable (r : Rel) (relation : Relation) :
    Creates (createTable r.1 r.2 relation) r := by
  have start := @creates_start " (" ['('] (by decide) r
  exact ((((start.append _).append _).append _).append _).append _

theorem creates_createPartition (parent : Rel) (p : PartRef) :
    Creates (createPartition parent.1 parent.2 p) (PartRef.rel p) := by
  have start := @creates_start " PARTITION OF " "PARTITION OF ".toList (by decide) (PartRef.rel p)
  have shape : createPartition parent.1 parent.2 p =
      "CREATE TABLE " ++ qualified p.schema p.name ++ " PARTITION OF " ++
        String.join [qualified parent.1 parent.2, " ", p.bound] ++ ";" := by
    rw [createPartition, statement, String.join_cons, String.join_cons, ← String.append_assoc,
      ← String.append_assoc]
  rw [shape]
  exact (start.append _).append _

theorem copied_copyHeader {r : Rel} (named : Named r) (columns rows : List String) :
    copied (.copy (copyHeader r.1 r.2 columns) rows) = some (nameOf r, rows) := by
  obtain ⟨tail, shape⟩ : ∃ tail, (copyHeader r.1 r.2 columns).toList =
      "COPY ".toList ++ ((qualified r.1 r.2).toList ++ ' ' :: tail) := by
    have opening : " (".toList = ' ' :: ['('] := by decide
    refine ⟨['('] ++ (", ".intercalate (columns.map quotePGIdent)).toList ++
      ") FROM stdin".toList, ?_⟩
    rw [copyHeader, String.toList_append, String.toList_append, String.toList_append,
      String.toList_append, opening, List.append_assoc, List.append_assoc, List.append_assoc,
      List.append_assoc, List.cons_append]
  have apart : Apart (' ' :: tail) := fun same => absurd (Option.some.inj same) (by decide)
  rw [copied, shape, after_append, Option.bind_some, readQualified_named named apart]
  rfl

theorem attached_attachPartition {parent : Rel} {p : PartRef} (parentNamed : Named parent)
    (partNamed : Named (PartRef.rel p)) :
    attached (.sql (attachPartition parent.1 parent.2 p)) =
      some (nameOf parent, nameOf (PartRef.rel p)) := by
  obtain ⟨tail, shape⟩ : ∃ tail, (attachPartition parent.1 parent.2 p).toList =
      "ALTER TABLE ONLY ".toList ++ ((qualified parent.1 parent.2).toList ++
        (" ATTACH PARTITION ".toList ++ ((qualified p.schema p.name).toList ++ ' ' :: tail))) := by
    have blank : " ".toList = [' '] := by decide
    refine ⟨p.bound.toList ++ ";".toList, ?_⟩
    rw [attachPartition, statement, String.join_cons, String.join_cons, String.join_cons,
      String.join_cons, String.join_cons, String.join_nil, String.append_empty,
      String.toList_append, String.toList_append, String.toList_append, String.toList_append,
      String.toList_append, String.toList_append, blank, List.append_assoc, List.append_assoc,
      List.append_assoc, List.append_assoc, List.append_assoc, List.singleton_append]
  have apart : Apart (' ' :: tail) := fun same => absurd (Option.some.inj same) (by decide)
  have wordApart : Apart (" ATTACH PARTITION ".toList ++
      ((qualified p.schema p.name).toList ++ ' ' :: tail)) := by
    have word : " ATTACH PARTITION ".toList = ' ' :: "ATTACH PARTITION ".toList := by decide
    rw [word]
    exact fun same => absurd (Option.some.inj same) (by decide)
  have part := @readQualified_named (PartRef.rel p) partNamed _ apart
  rw [attached, shape, after_append, Option.bind_some, readQualified_named parentNamed wordApart,
    Option.bind_some, after_append, Option.bind_some]
  simp only [PartRef.rel] at part ⊢
  rw [part]
  rfl

/-! ### Readings of the dump of one table -/

section Readings

variable {β : Type} {read : Piece → Option β}

theorem filterMap_constraints (alter : ∀ parts, read (.sql (statement "ALTER TABLE " parts)) = none)
    (only schema table : String) (cs : List Constraint) :
    (constraints only schema table cs).filterMap read = [] := by
  rw [List.filterMap_eq_nil_iff]
  intro piece member
  obtain ⟨c, -, rfl⟩ := List.mem_map.mp member
  exact alter _

theorem filterMap_tableOwner (gap : read .gap = none)
    (alter : ∀ parts, read (.sql (statement "ALTER TABLE " parts)) = none)
    (cat : Catalogue) (schema table : String) :
    (tableOwner cat schema table).filterMap read = [] := by
  rw [tableOwner]
  split
  · rfl
  · have owner : read (.sql (alterOwner "TABLE" (qualified schema table)
        (cat.relation schema table).owner)) = none := alter _
    rw [List.filterMap_cons_none owner, List.filterMap_cons_none gap, List.filterMap_nil]

/-- Of the pieces of `getCreateTable` only the `CREATE TABLE` statements are left. -/
theorem filterMap_getCreateTable (gap : read .gap = none)
    (alter : ∀ parts, read (.sql (statement "ALTER TABLE " parts)) = none)
    (drop : ∀ parts, read (.sql (statement "DROP TABLE IF EXISTS " parts)) = none)
    (cat : Catalogue) (schema table : String)
    (index : ∀ definition ∈ (cat.relation schema table).indexes,
      read (.sql (definition ++ ";")) = none) :
    (getCreateTable cat schema table).filterMap read =
      (read (.sql (createTable schema table (cat.relation schema table)))).toList ++
        (cat.partitions schema table).filterMap fun p =>
          read (.sql (createPartition schema table p)) := by
  have indexes : (getIndexes (cat.relation schema table).indexes).filterMap read = [] := by
    rw [List.filterMap_eq_nil_iff]
    intro piece member
    obtain ⟨definition, isIndex, rfl⟩ := List.mem_map.mp member
    exact index definition isIndex
  have gapOnly : [Piece.gap].filterMap read = [] := by
    rw [List.filterMap_cons_none gap, List.filterMap_nil]
  have optionalGap : ∀ uniques : List Piece,
      (if uniques = [] then [] else [Piece.gap]).filterMap read = [] := by
    intro uniques
    split
    · rfl
    · exact gapOnly
  have first : [Piece.sql (statement "DROP TABLE IF EXISTS " [qualified schema table]),
      .sql (createTable schema table (cat.relation schema table))].filterMap read =
      (read (.sql (createTable schema table (cat.relation schema table)))).toList := by
    rw [List.filterMap_cons_none (drop _)]
    cases result : read (.sql (createTable schema table (cat.relation schema table))) with
    | none => rw [List.filterMap_cons_none result, List.filterMap_nil, Option.toList_none]
    | some value => rw [List.filterMap_cons_some result, List.filterMap_nil, Option.toList_some]
  have partitions : (getPartitions cat schema table).filterMap read =
      (cat.partitions schema table).filterMap fun p =>
        read (.sql (createPartition schema table p)) := List.filterMap_map ..
  have last : (if getPartitions cat schema table = [] then [Piece.gap, .gap]
      else .gap :: getPartitions cat schema table ++ [Piece.gap]).filterMap read =
      (getPartitions cat schema table).filterMap read := by
    split
    · next noParts =>
        rw [noParts, List.filterMap_cons_none gap, gapOnly, List.filterMap_nil]
    · rw [List.filterMap_append, gapOnly, List.append_nil, List.filterMap_cons_none gap]
  have primary : (getPrimaryKey schema table (cat.relation schema table)).filterMap read = [] :=
    filterMap_constraints alter ..
  have uniques : (getUniqueConstraints schema table (cat.relation schema table)).filterMap read =
      [] := filterMap_constraints alter ..
  have checks : (getCheckConstraints schema table (cat.relation schema table)).filterMap read =
      [] := filterMap_constraints alter ..
  rw [getCreateTable]
  simp only [List.filterMap_append, first, primary, uniques, checks, optionalGap, indexes,
    gapOnly, last, partitions, List.append_nil]

end Readings

theorem created_alter (parts : List String) :
    created (.sql (statement "ALTER TABLE " parts)) = none :=
  created_statement alterTable_apart parts

theorem created_drop (parts : List String) :
    created (.sql (statement "DROP TABLE IF EXISTS " parts)) = none :=
  created_statement dropTable_apart parts

variable {cat : Catalogue}

theorem Readable.created_index (readable : Readable cat) {schema table definition : String}
    (isIndex : definition ∈ (cat.relation schema table).indexes) :
    created (.sql (definition ++ ";")) = none := by
  rcases readable.indexes schema table definition isIndex with ⟨rest, rfl⟩ | ⟨rest, rfl⟩
  · rw [String.append_assoc]
    exact created_other index_apart _
  · rw [String.append_assoc]
    exact created_other uniqueIndex_apart _

def partNames (cat : Catalogue) (r : Rel) : List RelName :=
  (cat.partitions r.1 r.2).map fun p => nameOf (PartRef.rel p)

theorem Readable.createdIn_getCreateTable (readable : Readable cat) (r : Rel) :
    createdIn (getCreateTable cat r.1 r.2) =
      (created (.sql (createTable r.1 r.2 (cat.relation r.1 r.2)))).toList ++
        partNames cat r := by
  have parts : ((cat.partitions r.1 r.2).filterMap fun p =>
      created (.sql (createPartition r.1 r.2 p))) = partNames cat r := by
    rw [partNames, ← List.filterMap_eq_map]
    refine List.filterMap_congr fun p member => ?_
    exact (creates_createPartition r p).created (readable.partNamed r.1 r.2 p member)
  rw [createdIn, filterMap_getCreateTable rfl created_alter created_drop cat r.1 r.2
    fun definition isIndex => readable.created_index isIndex, parts]

/-- The table and its partitions, which are created a first time here. -/
theorem Readable.createdIn_named (readable : Readable cat) {r : Rel} (named : Named r) :
    createdIn (getCreateTable cat r.1 r.2) = nameOf r :: partNames cat r := by
  rw [readable.createdIn_getCreateTable, (creates_createTable r _).created named]
  rfl

theorem copiedIn_getCreateTable (cat : Catalogue) (r : Rel) :
    copiedIn (getCreateTable cat r.1 r.2) = [] := by
  have noCopy : ∀ text, copied (.sql text) = none := fun _ => rfl
  rw [copiedIn, filterMap_getCreateTable rfl (fun _ => noCopy _) (fun _ => noCopy _) cat r.1 r.2
    fun _ _ => noCopy _]
  exact List.filterMap_eq_nil_iff.mpr fun p _ => noCopy _

/-- The rows of a table as they are written. -/
def rowsOf (cat : Catalogue) (r : Rel) : List String := (cat.relation r.1 r.2).rows.map copyLine

theorem copiedIn_copyData (cat : Catalogue) {r : Rel} (named : Named r) :
    copiedIn (copyData cat r.1 r.2) = [(nameOf r, rowsOf cat r)] := by
  rw [copiedIn, copyData, List.filterMap_cons_some (copied_copyHeader named _ _)]
  rfl

/-! ### Dumps one after another -/

theorem concat_pieces (dumps : List TableDump) :
    (TableDump.concat dumps).pieces = dumps.flatMap TableDump.pieces := by
  induction dumps with
  | nil => rfl
  | cons dump rest ih =>
    rw [List.flatMap_cons, ← ih]
    rfl

theorem concat_attach (dumps : List TableDump) :
    (TableDump.concat dumps).attach = dumps.flatMap TableDump.attach := by
  induction dumps with
  | nil => rfl
  | cons dump rest ih =>
    rw [List.flatMap_cons, ← ih]
    rfl

theorem mapM_forall₂ {α β : Type} {f : α → Option β} {Relates : α → β → Prop} {items : List α}
    (each : ∀ item ∈ items, ∃ result, f item = some result ∧ Relates item result) :
    ∃ results, items.mapM f = some results ∧ List.Forall₂ Relates items results := by
  induction items with
  | nil => exact ⟨[], List.mapM_nil, .nil⟩
  | cons item rest ih =>
    obtain ⟨result, isResult, relates⟩ := each item List.mem_cons_self
    obtain ⟨results, isResults, others⟩ :=
      ih (List.forall_mem_cons.mp each).2
    refine ⟨result :: results, ?_, .cons relates others⟩
    rw [List.mapM_cons, isResult, isResults]
    rfl

theorem forall₂_of_mapM {α β : Type} {f : α → Option β} {items : List α} {results : List β}
    (all : items.mapM f = some results) :
    List.Forall₂ (fun item result => item ∈ items ∧ f item = some result) items results := by
  induction items generalizing results with
  | nil =>
    rw [List.mapM_nil] at all
    rw [← Option.some.inj all]
    exact .nil
  | cons item rest ih =>
    rw [List.mapM_cons] at all
    obtain ⟨first, isFirst, later⟩ := Option.bind_eq_some_iff.mp all
    obtain ⟨others, isRest, joined⟩ := Option.bind_eq_some_iff.mp later
    rw [← Option.some.inj joined]
    refine .cons ⟨List.mem_cons_self, isFirst⟩ ?_
    exact (ih isRest).imp fun _ _ held =>
      ⟨List.mem_cons_of_mem _ held.1, held.2⟩

theorem flatMap_forall₂ {α β γ : Type} {items : List α} {results : List β} {g : β → List γ}
    {h : α → List γ} (all : List.Forall₂ (fun item result => g result = h item) items results) :
    results.flatMap g = items.flatMap h := by
  induction all with
  | nil => rfl
  | cons same _ ih => rw [List.flatMap_cons, List.flatMap_cons, same,
      ih]

/-! ### The partitions of a table -/

/-- The tables created below a table: each partition, its own partitions a first time, and then
what is below it. -/
def createdBelow (cat : Catalogue) : Nat → Rel → List RelName
  | 0, _ => []
  | levels + 1, r =>
    (cat.partitions r.1 r.2).flatMap fun p =>
      nameOf (PartRef.rel p) :: partNames cat (PartRef.rel p) ++
        createdBelow cat levels (PartRef.rel p)

/-- What the dump of the partitions below a table holds. -/
structure DumpsBelow (cat : Catalogue) (levels : Nat) (r : Rel) (dump : TableDump) : Prop where
  copies : copiedIn dump.pieces =
    (descendants cat levels r).map fun d => (nameOf d, rowsOf cat d)
  attaches : dump.attach.map attached =
    (edges cat levels r).map fun e => some (nameOf e.1, nameOf e.2)
  creates : createdIn dump.pieces = createdBelow cat levels r

theorem createdIn_tableOwner (cat : Catalogue) (schema table : String) :
    createdIn (tableOwner cat schema table) = [] :=
  filterMap_tableOwner rfl created_alter cat schema table

theorem copiedIn_tableOwner (cat : Catalogue) (schema table : String) :
    copiedIn (tableOwner cat schema table) = [] :=
  filterMap_tableOwner rfl (fun _ => rfl) cat schema table

theorem Readable.createdIn_partitionDump (readable : Readable cat)
    (schemaOnly : Bool) (parent : Rel) {p : PartRef} (named : Named (PartRef.rel p))
    (nested : TableDump) :
    createdIn (partitionDump cat schemaOnly parent.1 parent.2 p nested).pieces =
      nameOf (PartRef.rel p) :: partNames cat (PartRef.rel p) ++ createdIn nested.pieces := by
  have own := readable.createdIn_named named
  have owner := createdIn_tableOwner cat p.schema p.name
  have rows : (if schemaOnly = true then [] else copyData cat p.schema p.name).filterMap created =
      [] := by
    split
    · rfl
    · rfl
  rw [createdIn] at own owner ⊢
  simp only [PartRef.rel] at own
  simp only [partitionDump, List.filterMap_append, List.filterMap_cons, created, own, owner, rows,
    List.append_nil, PartRef.rel]
  rfl

theorem copiedIn_partitionDump (cat : Catalogue) (parent : Rel) {p : PartRef}
    (named : Named (PartRef.rel p)) (nested : TableDump) :
    copiedIn (partitionDump cat false parent.1 parent.2 p nested).pieces =
      (nameOf (PartRef.rel p), rowsOf cat (PartRef.rel p)) :: copiedIn nested.pieces := by
  have own := copiedIn_getCreateTable cat (PartRef.rel p)
  have owner := copiedIn_tableOwner cat p.schema p.name
  have rows := copiedIn_copyData cat named
  rw [copiedIn] at own owner rows ⊢
  simp only [PartRef.rel] at own rows
  simp only [partitionDump, Bool.false_eq_true, if_false, List.filterMap_append,
    List.filterMap_cons, copied, own, owner, rows, List.nil_append, PartRef.rel]
  rfl

/-- What the dump of one partition holds, with everything below it. -/
structure DumpsPart (cat : Catalogue) (levels : Nat) (parent : Rel) (p : PartRef)
    (dump : TableDump) : Prop where
  copies : copiedIn dump.pieces =
    (PartRef.rel p :: descendants cat levels (PartRef.rel p)).map fun d => (nameOf d, rowsOf cat d)
  attaches : dump.attach.map attached =
    (edges cat levels (PartRef.rel p) ++ [(parent, PartRef.rel p)]).map fun e =>
      some (nameOf e.1, nameOf e.2)
  creates : createdIn dump.pieces = nameOf (PartRef.rel p) :: partNames cat (PartRef.rel p) ++
    createdBelow cat levels (PartRef.rel p)

theorem Forest.dumpsPart (f : Forest) {levels : Nat} {parent : Rel} {p : PartRef}
    (parentNamed : Named parent) (member : p ∈ f.cat.partitions parent.1 parent.2)
    {nested : TableDump} (below : DumpsBelow f.cat levels (PartRef.rel p) nested) :
    DumpsPart f.cat levels parent p (partitionDump f.cat false parent.1 parent.2 p nested) := by
  have named := f.readable.partNamed parent.1 parent.2 p member
  constructor
  · rw [copiedIn_partitionDump f.cat parent named, below.copies, List.map_cons]
  · change (nested.attach ++ [Piece.sql (attachPartition parent.1 parent.2 p)]).map attached = _
    rw [List.map_append, List.map_append, below.attaches, List.map_singleton, List.map_singleton,
      attached_attachPartition parentNamed named]
  · rw [f.readable.createdIn_partitionDump false parent named, below.creates]

theorem descendants_of_none {r : Rel} (noParts : cat.partitions r.1 r.2 = []) :
    ∀ levels, descendants cat levels r = []
  | 0 => rfl
  | levels + 1 => by rw [descendants, noParts, List.flatMap_nil]

theorem edges_of_none {r : Rel} (noParts : cat.partitions r.1 r.2 = []) :
    ∀ levels, edges cat levels r = []
  | 0 => rfl
  | levels + 1 => by rw [edges, noParts, List.flatMap_nil]

theorem createdBelow_of_none {r : Rel}
    (noParts : cat.partitions r.1 r.2 = []) : ∀ levels, createdBelow cat levels r = []
  | 0 => rfl
  | levels + 1 => by rw [createdBelow, noParts, List.flatMap_nil]

theorem dumpsBelow_of_none {r : Rel} (noParts : cat.partitions r.1 r.2 = [])
    (levels : Nat) : DumpsBelow cat levels r {} := by
  constructor
  · rw [descendants_of_none noParts]
    rfl
  · rw [edges_of_none noParts]
    rfl
  · rw [createdBelow_of_none noParts]
    rfl

/-- The dumps of the partitions make up what is below their parent. -/
theorem dumpsBelow_concat {levels : Nat} {r : Rel} {dumps : List TableDump}
    (all : List.Forall₂ (DumpsPart cat levels r) (cat.partitions r.1 r.2) dumps) :
    DumpsBelow cat (levels + 1) r (TableDump.concat dumps) := by
  constructor
  · have each := flatMap_forall₂ (all.imp fun _ _ part => part.copies)
    rw [concat_pieces, copiedIn, List.filterMap_flatMap, descendants, List.map_flatMap]
    exact each
  · have each := @flatMap_forall₂ _ _ _ _ _ (fun dump => dump.attach.map attached) _
      (all.imp fun _ _ part => part.attaches)
    rw [concat_attach, edges, List.map_flatMap, List.map_flatMap]
    exact each
  · have each := flatMap_forall₂ (all.imp fun _ _ part => part.creates)
    rw [concat_pieces, createdIn, List.filterMap_flatMap, createdBelow]
    exact each

/-- A table with at most eight levels below it is dumped whole. The levels are counted by the
fuel of `dumpPartitions`; a partition that is not partitioned has nothing below it. -/
theorem Forest.dumpPartitions_below (f : Forest) (levels : Nat) :
    ∀ r, Named r → Shallow f.cat levels r →
      ∃ dump, dumpPartitions f.cat false (levels + 1) r.1 r.2 = some dump ∧
        DumpsBelow f.cat levels r dump := by
  induction levels with
  | zero =>
    intro r _ noParts
    refine ⟨{}, ?_, dumpsBelow_of_none noParts 0⟩
    rw [dumpPartitions, noParts]
    rfl
  | succ levels ih =>
    intro r named shallow
    have each : ∀ p ∈ f.cat.partitions r.1 r.2, ∃ dump,
        (if (f.cat.relation p.schema p.name).isPartitioned = true then
          (dumpPartitions f.cat false (levels + 1) p.schema p.name).map
            (partitionDump f.cat false r.1 r.2 p)
        else some (partitionDump f.cat false r.1 r.2 p {})) = some dump ∧
        DumpsPart f.cat levels r p dump := by
      intro p member
      by_cases parted : (f.cat.relation p.schema p.name).isPartitioned = true
      · obtain ⟨nested, isNested, below⟩ := ih (PartRef.rel p)
          (f.readable.partNamed r.1 r.2 p member) (shallow p member)
        refine ⟨_, ?_, f.dumpsPart named member below⟩
        rw [if_pos parted]
        simp only [PartRef.rel] at isNested
        rw [isNested]
        rfl
      · have noParts : f.cat.partitions p.schema p.name = [] := by
          by_contra someParts
          exact parted (f.readable.parents p.schema p.name someParts)
        refine ⟨_, ?_, f.dumpsPart named member (dumpsBelow_of_none noParts levels)⟩
        rw [if_neg parted]
    obtain ⟨dumps, isDumps, all⟩ := mapM_forall₂ each
    refine ⟨TableDump.concat dumps, ?_, dumpsBelow_concat all⟩
    rw [dumpPartitions, isDumps]
    rfl

end DbBackup.Engine.Postgres.Partitions
