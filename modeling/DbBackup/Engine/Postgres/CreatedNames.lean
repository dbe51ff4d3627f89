import DbBackup.Engine.Postgres.TableForest

/-!
Owns the names of the relations that a dump creates, for any options: the tables that pass the
filter, the partitions below them, and the views and materialized views with a definition.

Contract: no other part of the dump creates a relation (`dump_names`), so what is created is
known from the catalogue and the filter (`mem_created_iff`).
-/

set_option linter.all false

namespace DbBackup.Engine.Postgres.CreatedNames

open Engine.Postgres.Dumper Engine.Postgres.Filter Engine.Postgres.Partitions
  Engine.Postgres.StatementNames Engine.Postgres.Stream Engine.Postgres.TableForest Lib.SqlName

/-! ### Views -/

def viewKeywords : List String := ["CREATE OR REPLACE VIEW ", "CREATE MATERIALIZED VIEW "]

/-- The view or materialized view a piece creates. -/
def viewCreated : Piece → Option RelName
  | .sql text => viewKeywords.findSome? fun keyword =>
    (after keyword.toList text.toList).bind fun rest => (readQualified rest).map Prod.fst
  | _ => none

def viewsIn (pieces : List Piece) : List RelName := pieces.filterMap viewCreated

/-- The keywords of the statements that create no relation. -/
def Unlike (keyword : String) : Prop :=
  ∀ word ∈ "CREATE TABLE " :: viewKeywords,
    word.toList.isPrefixOf keyword.toList = false ∧ keyword.toList.isPrefixOf word.toList = false

instance (keyword : String) : Decidable (Unlike keyword) :=
  inferInstanceAs (Decidable (∀ word ∈ "CREATE TABLE " :: viewKeywords, _))

/-- The piece creates no relation. -/
def Quiet (piece : Piece) : Prop := created piece = none ∧ viewCreated piece = none

variable {keyword : String}

theorem viewCreated_other
    (apart : ∀ word ∈ viewKeywords, word.toList.isPrefixOf keyword.toList = false ∧
      keyword.toList.isPrefixOf word.toList = false) (rest : String) :
    viewCreated (.sql (keyword ++ rest)) = none := by
  rw [viewCreated, List.findSome?_eq_none_iff]
  intro word isWord
  obtain ⟨notShorter, notLonger⟩ := apart word isWord
  rw [String.toList_append, after_other rest.toList
    ⟨not_prefix_of_false notShorter, not_prefix_of_false notLonger⟩]
  rfl

theorem quiet_sql (unlike : Unlike keyword) (rest : String) : Quiet (.sql (keyword ++ rest)) := by
  obtain ⟨notShorter, notLonger⟩ := unlike _ List.mem_cons_self
  exact ⟨created_other ⟨not_prefix_of_false notShorter, not_prefix_of_false notLonger⟩ rest,
    viewCreated_other (List.forall_mem_cons.mp unlike).2 rest⟩

theorem quiet_statement (unlike : Unlike keyword) (parts : List String) :
    Quiet (.sql (statement keyword parts)) := by
  rw [statement, String.append_assoc]
  exact quiet_sql unlike _

def AllQuiet (pieces : List Piece) : Prop := ∀ piece ∈ pieces, Quiet piece

variable {pieces : List Piece}

theorem AllQuiet.createdIn (quiet : AllQuiet pieces) : createdIn pieces = [] :=
  List.filterMap_eq_nil_iff.mpr fun piece member => (quiet piece member).1

theorem AllQuiet.viewsIn (quiet : AllQuiet pieces) : viewsIn pieces = [] :=
  List.filterMap_eq_nil_iff.mpr fun piece member => (quiet piece member).2

theorem allQuiet_append {first second : List Piece} (firstQuiet : AllQuiet first)
    (secondQuiet : AllQuiet second) : AllQuiet (first ++ second) := by
  intro piece member
  rcases List.mem_append.mp member with inFirst | inSecond
  · exact firstQuiet piece inFirst
  · exact secondQuiet piece inSecond

theorem allQuiet_cons {piece : Piece} {rest : List Piece} (quiet : Quiet piece)
    (restQuiet : AllQuiet rest) : AllQuiet (piece :: rest) := by
  intro other member
  rcases List.mem_cons.mp member with rfl | inRest
  · exact quiet
  · exact restQuiet other inRest

theorem allQuiet_nil : AllQuiet [] := fun _ member => absurd member List.not_mem_nil

theorem quiet_comment (label : String) : Quiet (.comment label) := ⟨rfl, rfl⟩

theorem quiet_gap : Quiet .gap := ⟨rfl, rfl⟩

theorem allQuiet_flatMap {α : Type} {items : List α} {write : α → List Piece}
    (each : ∀ item ∈ items, AllQuiet (write item)) : AllQuiet (items.flatMap write) := by
  intro piece member
  obtain ⟨item, isItem, written⟩ := List.mem_flatMap.mp member
  exact each item isItem piece written

theorem allQuiet_map {α : Type} {items : List α} {write : α → Piece}
    (each : ∀ item ∈ items, Quiet (write item)) : AllQuiet (items.map write) := by
  intro piece member
  obtain ⟨item, isItem, rfl⟩ := List.mem_map.mp member
  exact each item isItem

theorem allQuiet_headed {heading : String} (quiet : AllQuiet pieces) :
    AllQuiet (headed heading pieces) := by
  rw [headed]
  split
  · exact allQuiet_nil
  · exact allQuiet_cons (quiet_comment heading) quiet

/-! ### Parts that create no relation -/

theorem allQuiet_ownerPieces {kind : String} (unlike : Unlike ("ALTER " ++ kind ++ " "))
    (target owner : String) : AllQuiet (ownerPieces kind target owner) := by
  rw [ownerPieces]
  split
  · exact allQuiet_nil
  · exact allQuiet_cons (quiet_statement unlike _) allQuiet_nil

theorem allQuiet_formatGrants (target : String) (grants : List Grant) :
    AllQuiet (formatGrants target grants) := by
  rw [formatGrants]
  split
  · exact allQuiet_nil
  · exact allQuiet_cons (quiet_statement (by decide) _)
      (allQuiet_map fun _ _ => quiet_statement (by decide) _)

theorem allQuiet_constraints (only schema table : String) (cs : List Constraint) :
    AllQuiet (constraints only schema table cs) :=
  allQuiet_map fun _ _ => quiet_statement (by decide) _

theorem allQuiet_lateConstraints (cat : Catalogue) (schema table : String) :
    AllQuiet (lateConstraints cat schema table) :=
  allQuiet_append (allQuiet_constraints _ _ _ _) (allQuiet_constraints _ _ _ _)

theorem keyword_cases (body : TypeBody) : body.keyword = "DOMAIN" ∨ body.keyword = "TYPE" := by
  cases body with
  | domain => exact .inl rfl
  | enum => exact .inr rfl
  | composite => exact .inr rfl
  | range => exact .inr rfl

theorem allQuiet_dumpDrops (cat : Catalogue) (included : List String) :
    AllQuiet (dumpDrops cat included) := by
  refine allQuiet_cons (quiet_comment _) (allQuiet_append (allQuiet_append (allQuiet_append ?_
    (allQuiet_map fun _ _ => quiet_statement (by decide) _)) (allQuiet_map ?_))
    (allQuiet_map fun _ _ => quiet_statement (by decide) _))
  · intro piece member
    obtain ⟨table, -, isDrop⟩ := List.mem_filterMap.mp member
    obtain ⟨name, -, rfl⟩ := Option.map_eq_some_iff.mp isDrop
    exact quiet_statement (by decide) _
  · intro t _
    rcases keyword_cases t.body with isDomain | isType
    · rw [isDomain]
      exact quiet_statement (by decide) _
    · rw [isType]
      exact quiet_statement (by decide) _

theorem allQuiet_dumpSchemas (cat : Catalogue) (options : DumpOptions) (included : List String) :
    AllQuiet (dumpSchemas cat options included) :=
  allQuiet_flatMap fun _ _ => allQuiet_append (allQuiet_append
    (allQuiet_cons (quiet_comment _)
      (allQuiet_cons (quiet_statement (by decide) _) allQuiet_nil))
    (allQuiet_ownerPieces (by decide) _ _)) (allQuiet_formatGrants _ _)

theorem allQuiet_dumpType (t : UserType) : AllQuiet (dumpType t) := by
  have owner : AllQuiet (ownerPieces t.body.keyword (qualified t.schema t.name) t.owner) := by
    rcases keyword_cases t.body with isDomain | isType
    · rw [isDomain]
      exact allQuiet_ownerPieces (by decide) _ _
    · rw [isType]
      exact allQuiet_ownerPieces (by decide) _ _
  have definition : AllQuiet ((typeDef (qualified t.schema t.name) t.body).map .sql) := by
    have twice : ∀ {first second : String}, Unlike first → Unlike second → ∀ parts others,
        AllQuiet [.sql (statement first parts), .sql (statement second others)] :=
      fun firstUnlike secondUnlike parts others =>
        allQuiet_cons (quiet_statement firstUnlike parts)
          (allQuiet_cons (quiet_statement secondUnlike others) allQuiet_nil)
    have typed := @twice "DROP TYPE IF EXISTS " "CREATE TYPE " (by decide) (by decide)
    have domain := @twice "DROP DOMAIN IF EXISTS " "CREATE DOMAIN " (by decide) (by decide)
    cases t.body with
    | enum labels => exact typed _ _
    | composite attributes => exact typed _ _
    | domain base default notNull checks => exact domain _ _
    | range options => exact typed _ _
  exact allQuiet_append (allQuiet_append (allQuiet_cons (quiet_comment _) definition) owner)
    (allQuiet_formatGrants _ _)

theorem allQuiet_getDomainChecks (t : UserType) : AllQuiet (getDomainChecks t) := by
  rw [getDomainChecks]
  split
  · exact allQuiet_map fun _ _ => quiet_statement (by decide) _
  · exact allQuiet_nil

theorem allQuiet_dumpSequences (cat : Catalogue) : AllQuiet (dumpSequences cat) :=
  allQuiet_flatMap fun _ _ => allQuiet_cons (quiet_comment _)
    (allQuiet_cons (quiet_statement (by decide) _) (allQuiet_ownerPieces (by decide) _ _))

theorem allQuiet_sequenceOwner (s : Sequence) : AllQuiet (sequenceOwner s) := by
  rw [sequenceOwner]
  split
  · exact allQuiet_nil
  · split
    · exact allQuiet_nil
    · exact allQuiet_cons (quiet_statement (by decide) _) allQuiet_nil

theorem allQuiet_sequenceValue (s : Sequence) : AllQuiet (sequenceValue s) := by
  rw [sequenceValue]
  split
  · exact allQuiet_nil
  · exact allQuiet_cons (quiet_statement (by decide) _) allQuiet_nil

theorem allQuiet_dumpSequenceValues (cat : Catalogue) (options : DumpOptions) :
    AllQuiet (dumpSequenceValues cat options) := by
  rw [dumpSequenceValues]
  split
  · exact allQuiet_nil
  · exact allQuiet_headed (allQuiet_flatMap fun s _ =>
      allQuiet_append (allQuiet_sequenceOwner s) (allQuiet_sequenceValue s))

theorem quiet_commentOn (c : Comment) : Quiet (.sql (commentOn c)) := by
  rw [commentOn]
  split
  · rw [String.append_assoc, String.append_assoc, String.append_assoc, String.append_assoc,
      String.append_assoc]
    exact quiet_sql (by decide) _
  · rw [String.append_assoc, String.append_assoc, String.append_assoc, String.append_assoc,
      String.append_assoc]
    exact quiet_sql (by decide) _

theorem allQuiet_dumpComments (cat : Catalogue) : AllQuiet (dumpComments cat) :=
  allQuiet_flatMap fun c _ =>
    allQuiet_cons (quiet_comment _) (allQuiet_cons (quiet_commentOn c) allQuiet_nil)

theorem allQuiet_grantRelation (kind schema name : String) (grants : List Grant) :
    AllQuiet (grantRelation kind schema name grants) := by
  rw [grantRelation]
  split
  · exact allQuiet_nil
  · exact allQuiet_cons (quiet_comment _) (allQuiet_formatGrants _ _)

theorem allQuiet_routineACL (f : Routine) : AllQuiet (routineACL f) := by
  refine allQuiet_headed (allQuiet_append ?_ (allQuiet_formatGrants _ _))
  split
  · exact allQuiet_ownerPieces (by decide) _ _
  · exact allQuiet_ownerPieces (by decide) _ _

theorem allQuiet_dumpACLs (cat : Catalogue) (tables : List String) :
    AllQuiet (dumpACLs cat tables) := by
  refine allQuiet_headed (allQuiet_append (allQuiet_append ?_
    (allQuiet_flatMap fun _ _ => allQuiet_grantRelation _ _ _ _))
    (allQuiet_flatMap fun f _ => allQuiet_routineACL f))
  refine allQuiet_flatMap fun table _ => ?_
  split
  · exact allQuiet_grantRelation _ _ _ _
  · exact allQuiet_nil

theorem allQuiet_matviewRefreshes (cat : Catalogue) : AllQuiet (matviewRefreshes cat) :=
  allQuiet_map fun _ _ => quiet_statement (by decide) _

/-! ### Tables and partitions -/

instance (r : Rel) : Decidable (Named r) :=
  inferInstanceAs (Decidable (r.1.toList ≠ [] ∧ r.2.toList ≠ []))

/-- What a dump of tables creates: tables that go by their own text, and partitions, whose names
are handed on. -/
structure DumpsNames (own parts : List Rel) (dump : TableDump) : Prop where
  creates : ∀ name, name ∈ createdIn dump.pieces ↔ name ∈ (own ++ parts).map nameOf
  noViews : viewsIn dump.pieces = []
  late : AllQuiet (dump.attach ++ dump.constraints)
  names : dump.partitionNames = parts.map keyOf

theorem dumpsNames_empty : DumpsNames [] [] {} where
  creates := fun _ => Iff.rfl
  noViews := rfl
  late := allQuiet_nil
  names := rfl

theorem viewsIn_append (first second : List Piece) :
    viewsIn (first ++ second) = viewsIn first ++ viewsIn second :=
  List.filterMap_append

theorem DumpsNames.append {own parts otherOwn otherParts : List Rel} {dump other : TableDump}
    (first : DumpsNames own parts dump) (second : DumpsNames otherOwn otherParts other) :
    DumpsNames (own ++ otherOwn) (parts ++ otherParts) (dump.append other) where
  creates := by
    intro name
    change name ∈ createdIn (dump.pieces ++ other.pieces) ↔ _
    rw [createdIn_append, List.mem_append, first.creates, second.creates]
    simp only [List.map_append, List.mem_append]
    grind
  noViews := by
    change viewsIn (dump.pieces ++ other.pieces) = []
    rw [viewsIn_append, first.noViews, second.noViews]
    rfl
  late := by
    intro piece member
    change piece ∈ (dump.attach ++ other.attach) ++ (dump.constraints ++ other.constraints) at member
    have firstLate := first.late piece
    have secondLate := second.late piece
    simp only [List.mem_append] at member firstLate secondLate
    grind
  names := by
    change dump.partitionNames ++ other.partitionNames = _
    rw [first.names, second.names, List.map_append]

theorem dumpsNames_concat {α : Type} {own parts : α → List Rel} {items : List α}
    {dumps : List TableDump}
    (all : List.Forall₂ (fun item dump => DumpsNames (own item) (parts item) dump) items dumps) :
    DumpsNames (items.flatMap own) (items.flatMap parts) (TableDump.concat dumps) := by
  induction all with
  | nil => exact dumpsNames_empty
  | cons first _ ih =>
    rw [List.flatMap_cons, List.flatMap_cons]
    exact first.append ih

theorem viewCreated_of_creates {text : String} {r : Rel} (creates : Creates text r) :
    viewCreated (.sql text) = none := by
  obtain ⟨tail, shape⟩ := creates
  have apart : ∀ word ∈ viewKeywords, word.toList.isPrefixOf "CREATE TABLE ".toList = false ∧
      "CREATE TABLE ".toList.isPrefixOf word.toList = false := by
    decide
  rw [viewCreated, shape, List.findSome?_eq_none_iff]
  intro word isWord
  obtain ⟨notShorter, notLonger⟩ := apart word isWord
  rw [after_other _ ⟨not_prefix_of_false notShorter, not_prefix_of_false notLonger⟩]
  rfl

theorem quiet_index {definition : String}
    (isIndex : (∃ rest, definition = "CREATE INDEX " ++ rest) ∨
      ∃ rest, definition = "CREATE UNIQUE INDEX " ++ rest) : Quiet (.sql (definition ++ ";")) := by
  rcases isIndex with ⟨rest, rfl⟩ | ⟨rest, rfl⟩
  · rw [String.append_assoc]
    exact quiet_sql (by decide) _
  · rw [String.append_assoc]
    exact quiet_sql (by decide) _

variable {cat : Catalogue}

theorem viewsIn_getCreateTable (readable : Readable cat) (r : Rel) :
    viewsIn (getCreateTable cat r.1 r.2) = [] := by
  have parts : ((cat.partitions r.1 r.2).filterMap fun p =>
      viewCreated (.sql (createPartition r.1 r.2 p))) = [] :=
    List.filterMap_eq_nil_iff.mpr fun p _ => viewCreated_of_creates (creates_createPartition r p)
  rw [viewsIn, filterMap_getCreateTable rfl (fun _ => (quiet_statement (by decide) _).2)
    (fun _ => (quiet_statement (by decide) _).2) cat r.1 r.2
    fun definition isIndex => (quiet_index (readable.indexes r.1 r.2 definition isIndex)).2,
    viewCreated_of_creates (creates_createTable r _), parts]
  rfl

theorem viewsIn_tableOwner (cat : Catalogue) (schema table : String) :
    viewsIn (tableOwner cat schema table) = [] :=
  filterMap_tableOwner rfl (fun _ => (quiet_statement (by decide) _).2) cat schema table

theorem mem_descendants_of_partNames {cat : Catalogue} {r : Rel} (levels : Nat) {name : RelName}
    (member : name ∈ partNames cat r) : name ∈ (descendants cat (levels + 1) r).map nameOf := by
  obtain ⟨p, isPart, rfl⟩ := List.mem_map.mp member
  rw [descendants]
  exact List.mem_map_of_mem (List.mem_flatMap.mpr ⟨p, isPart, List.mem_cons_self⟩)

theorem dumpsNames_partition (readable : Readable cat) (schemaOnly : Bool)
    (parent : Rel) {p : PartRef} (isPart : p ∈ cat.partitions parent.1 parent.2)
    {below : List Rel} {nested : TableDump} (nestedNames : DumpsNames [] below nested)
    (children : ∀ name ∈ partNames cat (PartRef.rel p), name ∈ below.map nameOf) :
    DumpsNames [] (PartRef.rel p :: below)
      (partitionDump cat schemaOnly parent.1 parent.2 p nested) where
  creates := by
    intro name
    rw [readable.createdIn_partitionDump schemaOnly parent (readable.partNamed _ _ p isPart),
      List.mem_append, nestedNames.creates, List.nil_append, List.nil_append, List.map_cons,
      List.mem_cons, List.mem_cons]
    have child := children name
    grind
  noViews := by
    have own := viewsIn_getCreateTable readable (PartRef.rel p)
    have owner := viewsIn_tableOwner cat p.schema p.name
    have rows : viewsIn (if schemaOnly = true then [] else copyData cat p.schema p.name) = [] := by
      split
      · rfl
      · rfl
    have comment : ∀ label, viewCreated (.comment label) = none := fun _ => rfl
    have nestedViews := nestedNames.noViews
    rw [viewsIn] at own
    simp only [PartRef.rel] at own
    rw [partitionDump, viewsIn_append, viewsIn_append, viewsIn_append, owner, rows, nestedViews,
      viewsIn, List.filterMap_cons_none (comment _), own]
    rfl
  late := by
    intro piece member
    change piece ∈ (nested.attach ++ [Piece.sql (attachPartition parent.1 parent.2 p)]) ++
      (nested.constraints ++ lateConstraints cat p.schema p.name) at member
    have nestedLate := nestedNames.late piece
    have own := allQuiet_lateConstraints cat p.schema p.name piece
    simp only [List.mem_append, List.mem_singleton] at member nestedLate
    rcases member with (inNested | isAttach) | (inNested | inOwn)
    · exact nestedLate (.inl inNested)
    · rw [isAttach]
      exact quiet_statement (by decide) _
    · exact nestedLate (.inr inNested)
    · exact own inOwn
  names := by
    change (p.schema ++ "." ++ p.name) :: nested.partitionNames = _
    rw [nestedNames.names]
    rfl

theorem dumpsNames_dumpPartitions (readable : Readable cat) (schemaOnly : Bool)
    (fuel : Nat) : ∀ (r : Rel) dump, dumpPartitions cat schemaOnly fuel r.1 r.2 = some dump →
      DumpsNames [] (descendants cat fuel r) dump := by
  induction fuel with
  | zero =>
    intro _ _ isDump
    cases isDump
  | succ fuel ih =>
    intro r dump isDump
    rw [dumpPartitions] at isDump
    obtain ⟨dumps, isDumps, rfl⟩ := Option.map_eq_some_iff.mp isDump
    have each : List.Forall₂ (fun p dump => DumpsNames []
        (PartRef.rel p :: descendants cat fuel (PartRef.rel p)) dump)
        (cat.partitions r.1 r.2) dumps := (forall₂_of_mapM isDumps).imp (by
        rintro p dump ⟨isPart, isDump⟩
        split at isDump
        · obtain ⟨nested, isNested, rfl⟩ := Option.map_eq_some_iff.mp isDump
          refine dumpsNames_partition readable schemaOnly r isPart
            (ih (PartRef.rel p) nested isNested) ?_
          cases fuel with
          | zero => cases isNested
          | succ fewer => exact fun name member => mem_descendants_of_partNames fewer member
        · next plain =>
            have noParts : cat.partitions p.schema p.name = [] := by
              by_contra someParts
              exact plain (readable.parents p.schema p.name someParts)
            have noChildren : partNames cat (PartRef.rel p) = [] := by
              rw [partNames]
              exact List.map_eq_nil_iff.mpr noParts
            rw [descendants_of_none noParts, ← Option.some.inj isDump]
            refine dumpsNames_partition readable schemaOnly r isPart dumpsNames_empty ?_
            rw [noChildren]
            exact fun _ member => absurd member List.not_mem_nil)
    have joined := @dumpsNames_concat _ (fun _ => []) _ _ _ each
    have noOwn : ((cat.partitions r.1 r.2).flatMap fun _ => ([] : List Rel)) = [] :=
      List.flatMap_eq_nil_iff.mpr fun _ _ => rfl
    rw [noOwn] at joined
    exact joined

/-- The table itself, where PostgreSQL takes the name. -/
def ownRel (table : String) : List Rel :=
  if Named (relOf table) then [relOf table] else []

theorem createdIn_startPieces_own (readable : Readable cat) (table : String) :
    createdIn (startPieces cat (relOf table)) =
      (ownRel table).map nameOf ++ partNames cat (relOf table) := by
  have owner := createdIn_tableOwner cat (relOf table).1 (relOf table).2
  have comment : ∀ label, created (.comment label) = none := fun _ => rfl
  have own := readable.createdIn_getCreateTable (relOf table)
  rw [startPieces, createdIn_append, owner, List.append_nil, createdIn,
    List.filterMap_cons_none (comment _)]
  refine own.trans (congrArg (· ++ partNames cat (relOf table)) ?_)
  have creates := creates_createTable (relOf table)
    (cat.relation (relOf table).1 (relOf table).2)
  rw [ownRel]
  split
  · next named =>
      rw [creates.created named]
      rfl
  · next unnamed => rw [creates.unread unnamed, Option.toList_none, List.map_nil]

theorem viewsIn_startPieces (readable : Readable cat) (r : Rel) :
    viewsIn (startPieces cat r) = [] := by
  have own := viewsIn_getCreateTable readable r
  have owner := viewsIn_tableOwner cat r.1 r.2
  have comment : ∀ label, viewCreated (.comment label) = none := fun _ => rfl
  rw [viewsIn] at own
  rw [startPieces, viewsIn_append, owner, viewsIn, List.filterMap_cons_none (comment _), own]
  rfl

theorem dumpTable_eq_options (cat : Catalogue) (options : DumpOptions) (table : String) :
    dumpTable cat options table =
      if (cat.relation (relOf table).1 (relOf table).2).isPartitioned then
        (dumpPartitions cat (tableSchemaOnly options table) 9 (relOf table).1
          (relOf table).2).map (TableDump.append
          { pieces := startPieces cat (relOf table),
            constraints := lateConstraints cat (relOf table).1 (relOf table).2 })
      else if tableSchemaOnly options table then some
        { pieces := startPieces cat (relOf table),
          constraints := lateConstraints cat (relOf table).1 (relOf table).2 }
      else some
        { pieces := startPieces cat (relOf table) ++
            copyData cat (relOf table).1 (relOf table).2,
          constraints := lateConstraints cat (relOf table).1 (relOf table).2 } := rfl

/-- The table's own pieces, with rows or without, where it has no partitions. -/
theorem dumpsNames_plain (readable : Readable cat) {table : String}
    (noParts : cat.partitions (relOf table).1 (relOf table).2 = []) {pieces rows : List Piece}
    (isPieces : pieces = startPieces cat (relOf table) ++ rows)
    (noCreates : createdIn rows = []) (noViews : viewsIn rows = []) :
    DumpsNames (ownRel table) (descendants cat 9 (relOf table))
      { pieces := pieces,
        constraints := lateConstraints cat (relOf table).1 (relOf table).2 } where
  creates := by
    intro name
    have noChildren : partNames cat (relOf table) = [] := by
      rw [partNames]
      exact List.map_eq_nil_iff.mpr noParts
    change name ∈ createdIn pieces ↔ _
    rw [isPieces, createdIn_append, createdIn_startPieces_own readable, noChildren, noCreates,
      descendants_of_none noParts, List.append_nil, List.append_nil, List.append_nil]
  noViews := by
    change viewsIn pieces = []
    rw [isPieces, viewsIn_append, viewsIn_startPieces readable, noViews]
    rfl
  late := allQuiet_lateConstraints _ _ _
  names := by
    rw [descendants_of_none noParts]
    rfl

theorem dumpsNames_dumpTable (readable : Readable cat) (options : DumpOptions)
    {table : String} {dump : TableDump} (isDump : dumpTable cat options table = some dump) :
    DumpsNames (ownRel table) (descendants cat 9 (relOf table)) dump := by
  rw [dumpTable_eq_options] at isDump
  by_cases parted : (cat.relation (relOf table).1 (relOf table).2).isPartitioned = true
  · rw [if_pos parted] at isDump
    obtain ⟨below, isBelow, rfl⟩ := Option.map_eq_some_iff.mp isDump
    have names := dumpsNames_dumpPartitions readable _ 9 (relOf table) below isBelow
    constructor
    · intro name
      have child := @mem_descendants_of_partNames cat (relOf table) 8 name
      change name ∈ createdIn (startPieces cat (relOf table) ++ below.pieces) ↔ _
      rw [createdIn_append, createdIn_startPieces_own readable, List.mem_append, List.mem_append,
        names.creates, List.nil_append, List.map_append, List.mem_append]
      grind
    · change viewsIn (startPieces cat (relOf table) ++ below.pieces) = []
      rw [viewsIn_append, viewsIn_startPieces readable, names.noViews]
      rfl
    · intro piece member
      change piece ∈ below.attach ++ (lateConstraints cat _ _ ++ below.constraints) at member
      have belowLate := names.late piece
      have own := allQuiet_lateConstraints cat (relOf table).1 (relOf table).2 piece
      simp only [List.mem_append] at member belowLate
      grind
    · exact names.names
  · have noParts : cat.partitions (relOf table).1 (relOf table).2 = [] := by
      by_contra someParts
      exact parted (readable.parents _ _ someParts)
    rw [if_neg parted] at isDump
    split at isDump
    · rw [← Option.some.inj isDump]
      exact dumpsNames_plain readable noParts (List.append_nil _).symm rfl rfl
    · rw [← Option.some.inj isDump]
      exact dumpsNames_plain readable noParts rfl rfl rfl

/-! ### The whole dump -/

/-- What the server vouches for, and what the dumpers that are left out do not write. -/
structure Served (cat : Catalogue) : Prop where
  readable : Readable cat
  viewNamed : ∀ v ∈ cat.views, Named (v.schema, v.name)
  matviewNamed : ∀ m ∈ cat.matviews, Named (m.schema, m.name)
  matviewIndexes : ∀ m ∈ cat.matviews, ∀ definition ∈ m.indexes,
    (∃ rest, definition = "CREATE INDEX " ++ rest) ∨
      ∃ rest, definition = "CREATE UNIQUE INDEX " ++ rest
  others : AllQuiet (cat.other.extensionsAndCollations ++ cat.other.routines ++
    cat.other.foreignObjects ++ cat.other.tableRoutines ++ cat.other.tableObjects ++
    cat.other.blobs ++ cat.other.privileges)

/-- The relations the tables of a dump make: those that pass the filter, and their partitions. -/
def tableRels (cat : Catalogue) (options : DumpOptions) : List Rel :=
  (includedTables cat options).flatMap ownRel ++
    (includedTables cat options).flatMap fun table => descendants cat 9 (relOf table)

def viewRels (cat : Catalogue) : List Rel :=
  ((cat.views.filter fun v => v.definition ≠ "").map fun v => (v.schema, v.name)) ++
    (cat.matviews.filter fun m => m.definition ≠ "").map fun m => (m.schema, m.name)

def dumpedTables (cat : Catalogue) (options : DumpOptions) : Option TableDump :=
  ((includedTables cat options).mapM (dumpTable cat options)).map TableDump.concat

variable {options : DumpOptions} {tables : TableDump}

theorem dumpsNames_dumpedTables (readable : Readable cat)
    (isTables : dumpedTables cat options = some tables) :
    DumpsNames ((includedTables cat options).flatMap ownRel)
      ((includedTables cat options).flatMap fun table => descendants cat 9 (relOf table))
      tables := by
  obtain ⟨dumps, isDumps, rfl⟩ := Option.map_eq_some_iff.mp isTables
  exact dumpsNames_concat ((forall₂_of_mapM isDumps).imp fun _ _ held =>
    dumpsNames_dumpTable readable options held.2)

/-- The text creates a view of this name. -/
theorem viewCreated_text {keyword : String} (isKeyword : keyword ∈ viewKeywords) {r : Rel}
    (named : Named r) {text : String} {tail : List Char}
    (shape : text.toList = keyword.toList ++ ((qualified r.1 r.2).toList ++ ' ' :: tail)) :
    viewCreated (.sql text) = some (nameOf r) := by
  have apart : ∀ first ∈ viewKeywords, ∀ second ∈ viewKeywords, first.toList ≠ second.toList →
      first.toList.isPrefixOf second.toList = false ∧
        second.toList.isPrefixOf first.toList = false := by
    decide
  have blank : Apart (' ' :: tail) := fun same => absurd (Option.some.inj same) (by decide)
  rw [viewCreated, shape]
  refine (findSome_after (fun rest => (readQualified rest).map Prod.fst) viewKeywords
    (List.mem_map_of_mem isKeyword) ?_).trans ?_
  · intro word isWord differs
    obtain ⟨notShorter, notLonger⟩ := apart word isWord keyword isKeyword differs
    exact ⟨not_prefix_of_false notShorter, not_prefix_of_false notLonger⟩
  · rw [readQualified_named named blank]
    rfl

/-- The text of a view: keyword, name, and what follows them. -/
theorem toList_viewText (keyword schema name body close : String) :
    (keyword ++ qualified schema name ++ " AS\n" ++ body ++ close).toList =
      keyword.toList ++ ((qualified schema name).toList ++
        ' ' :: ("AS\n".toList ++ (body.toList ++ close.toList))) := by
  have asWord : " AS\n".toList = ' ' :: "AS\n".toList := by decide
  rw [String.toList_append, String.toList_append, String.toList_append, String.toList_append,
    asWord, List.append_assoc, List.append_assoc, List.append_assoc, List.cons_append]

theorem viewCreated_createView {v : View} (named : Named (v.schema, v.name)) :
    viewCreated (.sql (createView v)) = some (nameOf (v.schema, v.name)) :=
  @viewCreated_text "CREATE OR REPLACE VIEW " (by decide) _ named _ _
    (toList_viewText "CREATE OR REPLACE VIEW " v.schema v.name (viewBody v.definition) ";")

theorem viewCreated_createMatview {m : Matview} (named : Named (m.schema, m.name)) :
    viewCreated (.sql (createMatview m)) = some (nameOf (m.schema, m.name)) :=
  @viewCreated_text "CREATE MATERIALIZED VIEW " (by decide) _ named _ _
    (toList_viewText "CREATE MATERIALIZED VIEW " m.schema m.name (viewBody m.definition)
      "\nWITH NO DATA;")

theorem viewsIn_flatMap {α : Type} {items : List α} {write : α → List Piece} {name : α → RelName}
    (each : ∀ item ∈ items, viewsIn (write item) = [name item]) :
    viewsIn (items.flatMap write) = items.map name := by
  rw [viewsIn, List.filterMap_flatMap, List.map_eq_flatMap]
  exact List.flatMap_congr each

theorem createdIn_flatMap_nil {α : Type} {items : List α} {write : α → List Piece}
    (each : ∀ item ∈ items, createdIn (write item) = []) : createdIn (items.flatMap write) = [] := by
  rw [createdIn, List.filterMap_flatMap]
  exact List.flatMap_eq_nil_iff.mpr each

theorem created_viewText {keyword : String} (isKeyword : keyword ∈ viewKeywords)
    (schema name body close : String) :
    created (.sql (keyword ++ qualified schema name ++ " AS\n" ++ body ++ close)) = none := by
  have apart : ∀ word ∈ viewKeywords, ¬ "CREATE TABLE ".toList <+: word.toList ∧
      ¬ word.toList <+: "CREATE TABLE ".toList := by
    decide
  rw [created, toList_viewText, after_other _ (apart keyword isKeyword)]
  rfl

theorem created_createView (v : View) : created (.sql (createView v)) = none :=
  @created_viewText "CREATE OR REPLACE VIEW " (by decide) ..

theorem created_createMatview (m : Matview) : created (.sql (createMatview m)) = none :=
  @created_viewText "CREATE MATERIALIZED VIEW " (by decide) ..

theorem dumpViews_names (served : Served cat) :
    createdIn (dumpViews cat) = [] ∧ viewsIn (dumpViews cat) =
      (cat.views.filter fun v => v.definition ≠ "").map fun v => nameOf (v.schema, v.name) := by
  have rest : ∀ v : View, AllQuiet (ownerPieces "VIEW" (qualified v.schema v.name) v.owner ++
      [Piece.gap]) := fun v => allQuiet_append (allQuiet_ownerPieces (by decide) _ _)
        (allQuiet_cons quiet_gap allQuiet_nil)
  constructor
  · refine createdIn_flatMap_nil fun v _ => ?_
    rw [List.append_assoc, createdIn_append, (rest v).createdIn, createdIn,
      List.filterMap_cons_none (quiet_comment _).1,
      List.filterMap_cons_none (created_createView v)]
    rfl
  · refine viewsIn_flatMap fun v member => ?_
    have named := served.viewNamed v (List.mem_of_mem_filter member)
    rw [List.append_assoc, viewsIn_append, (rest v).viewsIn, viewsIn,
      List.filterMap_cons_none (quiet_comment _).2,
      List.filterMap_cons_some (viewCreated_createView named)]
    rfl

theorem dumpMatviews_names (served : Served cat) :
    createdIn (dumpMatviews cat) = [] ∧ viewsIn (dumpMatviews cat) =
      (cat.matviews.filter fun m => m.definition ≠ "").map fun m =>
        nameOf (m.schema, m.name) := by
  have rest : ∀ m ∈ cat.matviews.filter fun m => m.definition ≠ "",
      AllQuiet (ownerPieces "MATERIALIZED VIEW" (qualified m.schema m.name) m.owner ++
        getIndexes m.indexes) := by
    intro m member
    refine allQuiet_append (allQuiet_ownerPieces (by decide) _ _) (allQuiet_map ?_)
    exact fun definition isIndex => quiet_index
      (served.matviewIndexes m (List.mem_of_mem_filter member) definition isIndex)
  have drop : ∀ m : Matview, Quiet (.sql (statement "DROP MATERIALIZED VIEW IF EXISTS "
      [qualified m.schema m.name, " CASCADE"])) := fun _ => quiet_statement (by decide) _
  constructor
  · refine createdIn_flatMap_nil fun m member => ?_
    rw [List.append_assoc, createdIn_append, (rest m member).createdIn, createdIn,
      List.filterMap_cons_none (quiet_comment _).1, List.filterMap_cons_none (drop m).1,
      List.filterMap_cons_none (created_createMatview m)]
    rfl
  · refine viewsIn_flatMap fun m member => ?_
    have named := served.matviewNamed m (List.mem_of_mem_filter member)
    rw [List.append_assoc, viewsIn_append, (rest m member).viewsIn, viewsIn,
      List.filterMap_cons_none (quiet_comment _).2, List.filterMap_cons_none (drop m).2,
      List.filterMap_cons_some (viewCreated_createMatview named)]
    rfl

theorem Served.quietOthers (served : Served cat) :
    AllQuiet cat.other.extensionsAndCollations ∧ AllQuiet cat.other.routines ∧
      AllQuiet cat.other.foreignObjects ∧ AllQuiet cat.other.tableRoutines ∧
      AllQuiet cat.other.tableObjects ∧ AllQuiet cat.other.blobs ∧
      AllQuiet cat.other.privileges := by
  have quiet := served.others
  have part : ∀ pieces : List Piece, pieces ⊆ cat.other.extensionsAndCollations ++
      cat.other.routines ++ cat.other.foreignObjects ++ cat.other.tableRoutines ++
      cat.other.tableObjects ++ cat.other.blobs ++ cat.other.privileges → AllQuiet pieces :=
    fun pieces within piece member => quiet piece (within member)
  refine ⟨part _ ?_, part _ ?_, part _ ?_, part _ ?_, part _ ?_, part _ ?_, part _ ?_⟩
  all_goals
    intro piece member
    simp only [List.mem_append]
    grind

/-- Only the tables and the views of a dump create relations. -/
theorem dump_names (served : Served cat)  (isTables : dumpedTables cat options = some tables)
    (isDump : dumpDatabase cat options = some pieces) :
    createdIn pieces = createdIn tables.pieces ∧ viewsIn pieces = (viewRels cat).map nameOf := by
  obtain ⟨extensions, routines, foreign, tableRoutines, objects, blobs, privileges⟩ :=
    served.quietOthers
  have names := dumpsNames_dumpedTables served.readable isTables
  have attach : AllQuiet (headed "Attach partitions" tables.attach) :=
    allQuiet_headed fun piece member => names.late piece (List.mem_append_left _ member)
  have late : AllQuiet (headed "Foreign keys and exclusion constraints" tables.constraints) :=
    allQuiet_headed fun piece member => names.late piece (List.mem_append_right _ member)
  have title : AllQuiet [.comment ("Database: " ++ cat.dbName)] :=
    allQuiet_cons (quiet_comment _) allQuiet_nil
  have drops := allQuiet_dumpDrops cat (includedTables cat options)
  have schemas := allQuiet_dumpSchemas cat options (includedTables cat options)
  have types : AllQuiet (cat.types.flatMap dumpType) :=
    allQuiet_flatMap fun t _ => allQuiet_dumpType t
  have checks : AllQuiet (headed "Domain checks" (cat.types.flatMap getDomainChecks)) :=
    allQuiet_headed (allQuiet_flatMap fun t _ => allQuiet_getDomainChecks t)
  have sequences := allQuiet_dumpSequences cat
  have comments := allQuiet_dumpComments cat
  have values := allQuiet_dumpSequenceValues cat options
  have grants := allQuiet_dumpACLs cat (includedTables cat options ++ tables.partitionNames)
  have refreshes : AllQuiet (headed "Materialized view data" (matviewRefreshes cat)) :=
    allQuiet_headed (allQuiet_matviewRefreshes cat)
  obtain ⟨viewsNone, viewsSome⟩ := dumpViews_names served
  obtain ⟨matviewsNone, matviewsSome⟩ := dumpMatviews_names served
  rw [dumpedTables] at isTables
  rw [dumpDatabase, isTables] at isDump
  rw [← Option.some.inj isDump]
  constructor
  · simp only [createdIn_append, title.createdIn, drops.createdIn, schemas.createdIn,
      extensions.createdIn, types.createdIn, routines.createdIn, checks.createdIn,
      foreign.createdIn, sequences.createdIn, attach.createdIn, late.createdIn, viewsNone,
      matviewsNone, tableRoutines.createdIn, objects.createdIn, comments.createdIn,
      blobs.createdIn, values.createdIn, grants.createdIn, privileges.createdIn,
      refreshes.createdIn, List.append_nil, List.nil_append]
  · simp only [viewsIn_append, title.viewsIn, drops.viewsIn, schemas.viewsIn, extensions.viewsIn,
      types.viewsIn, routines.viewsIn, checks.viewsIn, foreign.viewsIn, sequences.viewsIn,
      names.noViews, attach.viewsIn, late.viewsIn, viewsSome, matviewsSome,
      tableRoutines.viewsIn, objects.viewsIn, comments.viewsIn, blobs.viewsIn, values.viewsIn,
      grants.viewsIn, privileges.viewsIn, refreshes.viewsIn, List.append_nil, List.nil_append]
    rw [viewRels, List.map_append, List.map_map, List.map_map]
    rfl

/-- The names created are those of the tables that pass the filter, of the partitions below them
and of the views with a definition. -/
theorem mem_created_iff (served : Served cat)  (isTables : dumpedTables cat options = some tables)
    (isDump : dumpDatabase cat options = some pieces) (r : Rel) :
    nameOf r ∈ createdIn pieces ∨ nameOf r ∈ viewsIn pieces ↔
      r ∈ tableRels cat options ∨ r ∈ viewRels cat := by
  obtain ⟨created, views⟩ := dump_names served isTables isDump
  have names := dumpsNames_dumpedTables served.readable isTables
  rw [created, names.creates, views, List.mem_map_of_injective nameOf_injective,
    List.mem_map_of_injective nameOf_injective]
  rfl

end DbBackup.Engine.Postgres.CreatedNames
