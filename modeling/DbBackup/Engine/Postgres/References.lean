import DbBackup.Engine.Postgres.CreatedNames

/-!
Owns what the later passes of a filtered dump refer to: `dumpComments`, the owners of
`dumpSequenceValues`, the grants of `dumpACLs` and `dumpTriggers`.

`dumpTriggers` and the grants of tables go through the tables that were dumped. Comments and
owners of sequences are asked for again from the whole catalogue, whatever the filter is, and
so are views with grants.

Contract: `refersToCreated_iff`.

Does not own comments on sequences, which name no table, column or index.
-/

set_option linter.all false

namespace DbBackup.Engine.Postgres.References

open Engine.Postgres.CreatedNames Engine.Postgres.Dumper Engine.Postgres.Filter
  Engine.Postgres.Partitions Engine.Postgres.Stream Engine.Postgres.TableForest Lib.GoString

/-! ### Triggers -/

structure Trigger where
  name : String
  /-- `pg_get_triggerdef`. -/
  definition : String
deriving DecidableEq

def triggerPieces (r : Rel) (trigger : Trigger) : List Piece :=
  [.comment ("Trigger: " ++ trigger.name ++ " (on " ++ r.1 ++ "." ++ r.2 ++ ")"),
    .sql (statement "DROP TRIGGER IF EXISTS "
      [quotePGIdent trigger.name, " ON ", qualified r.1 r.2]),
    .sql (trimSuffix (trimSpace trigger.definition) ";" ++ ";")]

/-- What is written for one table whose text has a dot. -/
def tableTriggers (triggers : Rel → List Trigger) (r : Rel) : List Piece :=
  ((triggers r).filter fun trigger => trigger.definition ≠ "").flatMap (triggerPieces r)

def dumpTriggers (triggers : Rel → List Trigger) (tables : List String) : List Piece :=
  tables.flatMap fun table =>
    match splitTable table with
    | (schema, some name) => tableTriggers triggers (schema, name)
    | (_, none) => []

/-! ### A dump under a filter -/

/-- A dump, with what its catalogue queries answered. -/
structure FilteredDump where
  cat : Catalogue
  options : DumpOptions
  tables : TableDump
  isTables : dumpedTables cat options = some tables
  served : Served cat
  triggers : Rel → List Trigger
  /-- The table an index is on. -/
  indexTable : Rel → Rel
  otherObjects : List Piece
  objects : cat.other.tableObjects =
    dumpTriggers triggers (includedTables cat options ++ tables.partitionNames) ++ otherObjects

/-- `postTables`: the tables that pass the filter, and their partitions. -/
def FilteredDump.postTables (d : FilteredDump) : List String :=
  includedTables d.cat d.options ++ d.tables.partitionNames

/-- The relation that a comment is about, itself or through a column or an index. -/
def commentTarget (indexTable : Rel → Rel) (c : Comment) : Option Rel :=
  match c.column, c.kind with
  | none, .sequence => none
  | none, .index => some (indexTable (c.schema, c.rel))
  | _, _ => some (c.schema, c.rel)

def commentRefs (d : FilteredDump) : List (Piece × Rel) :=
  d.cat.comments.filterMap fun c =>
    (commentTarget d.indexTable c).map fun r => (.sql (commentOn c), r)

/-- The owner of a sequence, where `dumpSequenceValues` writes one. -/
def ownerOf (s : Sequence) : Option Rel :=
  match s.ownedBy with
  | none => none
  | some (table, _) => if table = "" then none else some (relOf table)

def ownerRefs (d : FilteredDump) : List (Piece × Rel) :=
  if d.options.schemaOnly then []
  else d.cat.sequences.flatMap fun s =>
    (ownerOf s).toList.flatMap fun r => (sequenceOwner s).map fun piece => (piece, r)

/-- What is written for each table of the text's own name. -/
def tableRefs (tables : List String) (write : Rel → List Piece) : List (Piece × Rel) :=
  tables.flatMap fun table =>
    match splitTable table with
    | (schema, some name) => (write (schema, name)).map fun piece => (piece, (schema, name))
    | (_, none) => []

def tableGrants (cat : Catalogue) (r : Rel) : List Piece :=
  grantRelation "TABLE" r.1 r.2 (cat.relation r.1 r.2).grants

def viewRefs (d : FilteredDump) : List (Piece × Rel) :=
  d.cat.views.flatMap fun v =>
    (grantRelation "VIEW" v.schema v.name v.grants).map fun piece => (piece, (v.schema, v.name))

/-- The statements that refer to a relation, each with the relation. -/
def references (d : FilteredDump) : List (Piece × Rel) :=
  commentRefs d ++ ownerRefs d ++ tableRefs d.postTables (tableGrants d.cat) ++ viewRefs d ++
    tableRefs d.postTables (tableTriggers d.triggers)

/-- Every relation that is referred to is created by the same dump. -/
def RefersToCreated (d : FilteredDump) : Prop :=
  ∀ pieces, dumpDatabase d.cat d.options = some pieces → ∀ ref ∈ references d,
    nameOf ref.2 ∈ createdIn pieces ∨ nameOf ref.2 ∈ viewsIn pieces

/-! ### The condition -/

/-- A table that passes the filter, a partition below one, or a view with a definition. -/
def Dumped (cat : Catalogue) (options : DumpOptions) (r : Rel) : Prop :=
  r ∈ tableRels cat options ∨ r ∈ viewRels cat

/-- The texts that the later passes look up. -/
def lookedUp (cat : Catalogue) (options : DumpOptions) : List String :=
  includedTables cat options ++
    ((includedTables cat options).flatMap fun table => descendants cat 9 (relOf table)).map keyOf

structure Covered (d : FilteredDump) : Prop where
  comments : ∀ c ∈ d.cat.comments, ∀ r, commentTarget d.indexTable c = some r →
    Dumped d.cat d.options r
  owners : d.options.schemaOnly = false → ∀ s ∈ d.cat.sequences, ∀ r, ownerOf s = some r →
    Dumped d.cat d.options r
  views : ∀ v ∈ d.cat.views, v.grants ≠ [] → Dumped d.cat d.options (v.schema, v.name)
  /-- What has grants or triggers under the name that the text is cut into. -/
  names : ∀ table ∈ lookedUp d.cat d.options, (splitTable table).2.isSome →
    ((d.cat.relation (relOf table).1 (relOf table).2).grants ≠ [] ∨
      ∃ trigger ∈ d.triggers (relOf table), trigger.definition ≠ "") →
    Dumped d.cat d.options (relOf table)

/-! ### What each pass refers to -/

theorem postTables_eq (d : FilteredDump) : d.postTables = lookedUp d.cat d.options := by
  have names := (dumpsNames_dumpedTables d.served.readable d.isTables).names
  rw [FilteredDump.postTables, lookedUp, names]

theorem mem_commentRefs {d : FilteredDump} {r : Rel} : (∃ piece, (piece, r) ∈ commentRefs d) ↔
      ∃ c ∈ d.cat.comments, commentTarget d.indexTable c = some r := by
  constructor
  · rintro ⟨piece, member⟩
    obtain ⟨c, isComment, found⟩ := List.mem_filterMap.mp member
    obtain ⟨target, isTarget, same⟩ := Option.map_eq_some_iff.mp found
    rw [(Prod.mk.inj same).2] at isTarget
    exact ⟨c, isComment, isTarget⟩
  · rintro ⟨c, isComment, isTarget⟩
    refine ⟨.sql (commentOn c), List.mem_filterMap.mpr ⟨c, isComment, ?_⟩⟩
    rw [isTarget]
    rfl

theorem sequenceOwner_ne_nil {s : Sequence} {r : Rel} (owned : ownerOf s = some r) :
    sequenceOwner s ≠ [] := by
  rw [ownerOf] at owned
  rw [sequenceOwner]
  cases isOwned : s.ownedBy with
  | none =>
    rw [isOwned] at owned
    cases owned
  | some pair =>
    obtain ⟨table, column⟩ := pair
    rw [isOwned] at owned
    dsimp only at owned ⊢
    split at owned
    · cases owned
    · next nonempty =>
        simp only [if_neg nonempty]
        exact List.cons_ne_nil _ _

theorem mem_ownerRefs {d : FilteredDump} {r : Rel} : (∃ piece, (piece, r) ∈ ownerRefs d) ↔
      d.options.schemaOnly = false ∧ ∃ s ∈ d.cat.sequences, ownerOf s = some r := by
  rw [ownerRefs]
  by_cases schemaOnly : d.options.schemaOnly = true
  · rw [if_pos schemaOnly, schemaOnly]
    simp
  · rw [if_neg schemaOnly]
    rw [Bool.not_eq_true] at schemaOnly
    constructor
    · rintro ⟨piece, member⟩
      obtain ⟨s, isSequence, inOwner⟩ := List.mem_flatMap.mp member
      obtain ⟨owner, isOwner, written⟩ := List.mem_flatMap.mp inOwner
      obtain ⟨_, -, same⟩ := List.mem_map.mp written
      rw [← (Prod.mk.inj same).2]
      exact ⟨schemaOnly, s, isSequence, Option.mem_toList.mp isOwner⟩
    · rintro ⟨-, s, isSequence, owned⟩
      obtain ⟨piece, written⟩ := List.exists_mem_of_ne_nil _ (sequenceOwner_ne_nil owned)
      refine ⟨piece, List.mem_flatMap.mpr ⟨s, isSequence, List.mem_flatMap.mpr ⟨r, ?_, ?_⟩⟩⟩
      · exact Option.mem_toList.mpr owned
      · exact List.mem_map.mpr ⟨piece, written, rfl⟩

theorem mem_tableRefs {tables : List String} {write : Rel → List Piece} {r : Rel} :
    (∃ piece, (piece, r) ∈ tableRefs tables write) ↔
      ∃ table ∈ tables, (splitTable table).2.isSome ∧ relOf table = r ∧ write r ≠ [] := by
  constructor
  · rintro ⟨piece, member⟩
    obtain ⟨table, isTable, inTable⟩ := List.mem_flatMap.mp member
    split at inTable
    · next schema name cut =>
        obtain ⟨_, written, same⟩ := List.mem_map.mp inTable
        obtain ⟨-, rfl⟩ := Prod.mk.inj same
        refine ⟨table, isTable, by rw [cut]; rfl, by rw [relOf, cut]; rfl, ?_⟩
        exact List.ne_nil_of_mem written
    · exact absurd inTable List.not_mem_nil
  · rintro ⟨table, isTable, isCut, rfl, written⟩
    obtain ⟨piece, isPiece⟩ := List.exists_mem_of_ne_nil _ written
    obtain ⟨name, isName⟩ := Option.isSome_iff_exists.mp isCut
    refine ⟨piece, List.mem_flatMap.mpr ⟨table, isTable, ?_⟩⟩
    have whole : splitTable table = ((splitTable table).1, some name) := Prod.ext rfl isName
    have same : relOf table = ((splitTable table).1, name) := by
      rw [relOf, isName]
      rfl
    rw [same] at isPiece ⊢
    rw [whole]
    exact List.mem_map.mpr ⟨piece, isPiece, rfl⟩

theorem grantRelation_ne_nil {kind schema name : String} {grants : List Grant} :
    grantRelation kind schema name grants ≠ [] ↔ grants ≠ [] := by
  rw [grantRelation]
  split
  · next noGrants =>
      exact ⟨fun written => absurd rfl written, fun someGrants => absurd noGrants someGrants⟩
  · next someGrants => exact ⟨fun _ => someGrants, fun _ => List.cons_ne_nil _ _⟩

theorem tableTriggers_ne_nil {triggers : Rel → List Trigger} {r : Rel} :
    tableTriggers triggers r ≠ [] ↔ ∃ trigger ∈ triggers r, trigger.definition ≠ "" := by
  rw [tableTriggers, Ne, List.flatMap_eq_nil_iff]
  constructor
  · intro written
    by_contra noTrigger
    refine written fun trigger member => ?_
    rw [List.mem_filter, decide_eq_true_eq] at member
    exact absurd ⟨trigger, member⟩ noTrigger
  · rintro ⟨trigger, member, defined⟩ none_
    exact List.cons_ne_nil _ _
      (none_ trigger (List.mem_filter.mpr ⟨member, decide_eq_true defined⟩))

theorem mem_viewRefs {d : FilteredDump} {r : Rel} : (∃ piece, (piece, r) ∈ viewRefs d) ↔
      ∃ v ∈ d.cat.views, v.grants ≠ [] ∧ (v.schema, v.name) = r := by
  constructor
  · rintro ⟨piece, member⟩
    obtain ⟨v, isView, inView⟩ := List.mem_flatMap.mp member
    obtain ⟨_, written, same⟩ := List.mem_map.mp inView
    exact ⟨v, isView, grantRelation_ne_nil.mp (List.ne_nil_of_mem written), (Prod.mk.inj same).2⟩
  · rintro ⟨v, isView, granted, rfl⟩
    obtain ⟨piece, written⟩ := List.exists_mem_of_ne_nil _
      ((@grantRelation_ne_nil "VIEW" v.schema v.name v.grants).mpr granted)
    exact ⟨piece, List.mem_flatMap.mpr ⟨v, isView, List.mem_map.mpr ⟨piece, written, rfl⟩⟩⟩

/-! ### The statements are in the dump -/

variable {pieces : List Piece}

theorem mem_parts {d : FilteredDump}
    (isDump : dumpDatabase d.cat d.options = some pieces) {piece : Piece}
    (written : piece ∈ dumpComments d.cat ∨ piece ∈ dumpSequenceValues d.cat d.options ∨
      piece ∈ dumpACLs d.cat d.postTables ∨ piece ∈ dumpTriggers d.triggers d.postTables) :
    piece ∈ pieces := by
  have isTables := d.isTables
  have objects := d.objects
  rw [dumpedTables] at isTables
  rw [dumpDatabase, isTables] at isDump
  rw [← Option.some.inj isDump]
  rw [FilteredDump.postTables] at written
  simp only [List.mem_append, objects]
  grind

theorem mem_headed {heading : String} {piece : Piece}
    (member : piece ∈ pieces) : piece ∈ headed heading pieces := by
  rw [headed, if_neg (List.ne_nil_of_mem member)]
  exact List.mem_cons_of_mem _ member

/-- Each reference stands in the dump, in the statement it is taken from. -/
theorem exists_of_mem_tableRefs {tables : List String} {write : Rel → List Piece}
    {ref : Piece × Rel} (member : ref ∈ tableRefs tables write) :
    ∃ table ∈ tables, ∃ schema name, splitTable table = (schema, some name) ∧
      ref.1 ∈ write (schema, name) := by
  obtain ⟨table, isTable, inTable⟩ := List.mem_flatMap.mp member
  obtain ⟨⟨schema, rest⟩, cut⟩ : ∃ parts, splitTable table = parts := ⟨_, rfl⟩
  rw [cut] at inTable
  cases rest with
  | none => exact absurd inTable List.not_mem_nil
  | some name =>
    obtain ⟨piece, isPiece, rfl⟩ := List.mem_map.mp inTable
    exact ⟨table, isTable, schema, name, cut, isPiece⟩

theorem references_written {d : FilteredDump}
    (isDump : dumpDatabase d.cat d.options = some pieces) :
    ∀ ref ∈ references d, ref.1 ∈ pieces := by
  intro ref member
  refine mem_parts isDump ?_
  rcases List.mem_append.mp member with member | inTriggers
  rcases List.mem_append.mp member with member | inViews
  rcases List.mem_append.mp member with member | inGrants
  rcases List.mem_append.mp member with inComments | inOwners
  · obtain ⟨c, isComment, found⟩ := List.mem_filterMap.mp inComments
    obtain ⟨r, -, rfl⟩ := Option.map_eq_some_iff.mp found
    exact .inl (List.mem_flatMap.mpr
      ⟨c, isComment, List.mem_cons_of_mem _ List.mem_cons_self⟩)
  · refine .inr (.inl ?_)
    rw [ownerRefs] at inOwners
    rw [dumpSequenceValues]
    split at inOwners
    · exact absurd inOwners List.not_mem_nil
    · next withData =>
        rw [if_neg withData]
        obtain ⟨s, isSequence, inOwner⟩ := List.mem_flatMap.mp inOwners
        obtain ⟨r, -, written⟩ := List.mem_flatMap.mp inOwner
        obtain ⟨piece, isPiece, rfl⟩ := List.mem_map.mp written
        exact mem_headed (List.mem_flatMap.mpr
          ⟨s, isSequence, List.mem_append_left _ isPiece⟩)
  · refine .inr (.inr (.inl (mem_headed (List.mem_append_left _ (List.mem_append_left _ ?_)))))
    obtain ⟨table, isTable, schema, name, cut, isPiece⟩ := exists_of_mem_tableRefs inGrants
    refine List.mem_flatMap.mpr ⟨table, isTable, ?_⟩
    rw [cut]
    exact isPiece
  · refine .inr (.inr (.inl (mem_headed (List.mem_append_left _ (List.mem_append_right _ ?_)))))
    obtain ⟨v, isView, inView⟩ := List.mem_flatMap.mp inViews
    obtain ⟨piece, isPiece, rfl⟩ := List.mem_map.mp inView
    exact List.mem_flatMap.mpr ⟨v, isView, isPiece⟩
  · refine .inr (.inr (.inr ?_))
    obtain ⟨table, isTable, inTable⟩ := List.mem_flatMap.mp inTriggers
    refine List.mem_flatMap.mpr ⟨table, isTable, ?_⟩
    split at inTable
    · next schema name cut =>
        obtain ⟨piece, isPiece, rfl⟩ := List.mem_map.mp inTable
        exact isPiece
    · exact absurd inTable List.not_mem_nil

/-! ### Main results -/

/-- The relations that are referred to. -/
theorem refers_iff {d : FilteredDump} {r : Rel} : (∃ piece, (piece, r) ∈ references d) ↔
      (∃ c ∈ d.cat.comments, commentTarget d.indexTable c = some r) ∨
      (d.options.schemaOnly = false ∧ ∃ s ∈ d.cat.sequences, ownerOf s = some r) ∨
      (∃ v ∈ d.cat.views, v.grants ≠ [] ∧ (v.schema, v.name) = r) ∨
      ∃ table ∈ lookedUp d.cat d.options, (splitTable table).2.isSome ∧ relOf table = r ∧
        ((d.cat.relation r.1 r.2).grants ≠ [] ∨
          ∃ trigger ∈ d.triggers r, trigger.definition ≠ "") := by
  simp only [references, List.mem_append, exists_or, mem_commentRefs, mem_ownerRefs,
    mem_tableRefs, mem_viewRefs, tableGrants, grantRelation_ne_nil, tableTriggers_ne_nil,
    postTables_eq]
  grind

theorem FilteredDump.dumped (d : FilteredDump) :
    ∃ pieces, dumpDatabase d.cat d.options = some pieces := by
  have isTables := d.isTables
  rw [dumpedTables] at isTables
  rw [dumpDatabase, isTables]
  exact ⟨_, rfl⟩

/-- A filtered dump refers only to what it creates exactly when no comment and no sequence
belongs to a table that the filter leaves out, every view with grants has a definition, and the
texts of the dumped tables are cut into their names again. -/
theorem refersToCreated_iff (d : FilteredDump) : RefersToCreated d ↔ Covered d := by
  obtain ⟨pieces, isDump⟩ := d.dumped
  have created := mem_created_iff d.served d.isTables isDump
  have onlyDump : RefersToCreated d ↔
      ∀ r, (∃ piece, (piece, r) ∈ references d) → Dumped d.cat d.options r := by
    constructor
    · rintro holds r ⟨piece, member⟩
      exact (created r).mp (holds pieces isDump _ member)
    · intro covered others isOther ref member
      obtain rfl := Option.some.inj (isDump.symm.trans isOther)
      exact (created ref.2).mpr (covered ref.2 ⟨ref.1, member⟩)
  rw [onlyDump]
  constructor
  · intro covered
    constructor
    · exact fun c isComment r isTarget => covered r (refers_iff.mpr (.inl ⟨c, isComment, isTarget⟩))
    · exact fun withData s isSequence r owned =>
        covered r (refers_iff.mpr (.inr (.inl ⟨withData, s, isSequence, owned⟩)))
    · exact fun v isView granted =>
        covered _ (refers_iff.mpr (.inr (.inr (.inl ⟨v, isView, granted, rfl⟩))))
    · exact fun table isTable isCut used =>
        covered _ (refers_iff.mpr (.inr (.inr (.inr ⟨table, isTable, isCut, rfl, used⟩))))
  · intro covered r referred
    rcases refers_iff.mp referred with ⟨c, isComment, isTarget⟩ | ⟨withData, s, isSequence, owned⟩ |
      ⟨v, isView, granted, rfl⟩ | ⟨table, isTable, isCut, rfl, used⟩
    · exact covered.comments c isComment r isTarget
    · exact covered.owners withData s isSequence r owned
    · exact covered.views v isView granted
    · exact covered.names table isTable isCut used

/-- Two tables; the one that the filter leaves out has a comment. -/
def commentedCatalogue : Catalogue where
  dbName := "shop"
  tables := ["public.orders", "public.audit"]
  comments := [{ schema := "public", rel := "audit", kind := .table, description := "history" }]

def withoutAudit : DumpOptions :=
  dumpOptions { excluded := ["public.audit", "audit"] } false

def ordersDump : TableDump where
  pieces := startPieces commentedCatalogue (relOf "public.orders") ++
    copyData commentedCatalogue (relOf "public.orders").1 (relOf "public.orders").2
  constraints := lateConstraints commentedCatalogue (relOf "public.orders").1
    (relOf "public.orders").2

theorem included_withoutAudit :
    includedTables commentedCatalogue withoutAudit = ["public.orders"] := by
  have filtered : commentedCatalogue.tables.filter (tableIncluded withoutAudit) =
      ["public.orders"] := by
    decide +kernel
  rw [includedTables, filtered]
  exact List.mergeSort_singleton _

theorem dumpedTables_withoutAudit :
    dumpedTables commentedCatalogue withoutAudit = some (TableDump.concat [ordersDump]) := by
  have withData : tableSchemaOnly withoutAudit "public.orders" = false := by decide +kernel
  have dump : dumpTable commentedCatalogue withoutAudit "public.orders" = some ordersDump := by
    rw [dumpTable_eq_options, withData]
    rfl
  rw [dumpedTables, included_withoutAudit, List.mapM_cons, dump]
  rfl

theorem served_commented : Served commentedCatalogue where
  readable :=
    { partNamed := fun _ _ _ isPart => absurd isPart List.not_mem_nil
      parents := fun _ _ someParts => absurd rfl someParts
      indexes := fun _ _ _ isIndex => absurd isIndex List.not_mem_nil }
  viewNamed := fun _ isView => absurd isView List.not_mem_nil
  matviewNamed := fun _ isMatview => absurd isMatview List.not_mem_nil
  matviewIndexes := fun _ isMatview => absurd isMatview List.not_mem_nil
  others := allQuiet_nil

theorem dumpTriggers_none (tables : List String) : dumpTriggers (fun _ => []) tables = [] := by
  refine List.flatMap_eq_nil_iff.mpr fun table _ => ?_
  split
  · rfl
  · rfl

def commentedDump : FilteredDump where
  cat := commentedCatalogue
  options := withoutAudit
  tables := TableDump.concat [ordersDump]
  isTables := dumpedTables_withoutAudit
  served := served_commented
  triggers := fun _ => []
  indexTable := id
  otherObjects := []
  objects := by
    rw [dumpTriggers_none]
    rfl

/-- The dump comments on `public.audit`, which it does not create. -/
theorem commented_not_created :
    ¬ RefersToCreated commentedDump ∧
      ∃ pieces, dumpDatabase commentedDump.cat commentedDump.options = some pieces ∧
        (.sql "COMMENT ON TABLE \"public\".\"audit\" IS 'history';") ∈ pieces ∧
          nameOf ("public", "audit") ∉ createdIn pieces := by
  obtain ⟨pieces, isDump⟩ := commentedDump.dumped
  have created := mem_created_iff commentedDump.served commentedDump.isTables isDump
    ("public", "audit")
  have notDumped : ¬ (("public", "audit") ∈ tableRels commentedDump.cat commentedDump.options ∨
      ("public", "audit") ∈ viewRels commentedDump.cat) := by
    have tables : tableRels commentedDump.cat commentedDump.options = [("public", "orders")] := by
      rw [tableRels]
      have included : includedTables commentedDump.cat commentedDump.options =
        ["public.orders"] := included_withoutAudit
      rw [included]
      decide +kernel
    rw [tables]
    decide
  have isReference : (Piece.sql "COMMENT ON TABLE \"public\".\"audit\" IS 'history';",
      ("public", "audit")) ∈ references commentedDump := by
    refine List.mem_append_left _ (List.mem_append_left _ (List.mem_append_left _
      (List.mem_append_left _ ?_)))
    decide +kernel
  refine ⟨?_, pieces, isDump, references_written isDump _ isReference, ?_⟩
  · intro holds
    exact notDumped (created.mp (holds pieces isDump _ isReference))
  · intro isCreated
    exact notDumped (created.mp (.inl isCreated))

end DbBackup.Engine.Postgres.References
