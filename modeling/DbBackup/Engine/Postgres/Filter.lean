import DbBackup.Config.TableFilter
import DbBackup.Engine.Postgres.Dumper

/-!
Owns what a job's table filter does to a PostgreSQL dump. A table has two
names, with its schema and without, and the dumper asks the filter about both.

Contract: exactly when the tables and the data in the dump are those the
patterns ask for (`filterHolds_iff`). A pattern in `Exclude` that matches one
of the two names is undone where the other name passes the filter, and a
pattern in `SchemaOnly` is not seen where the name it matches does not pass.
-/

set_option linter.all false

namespace DbBackup.Engine.Postgres.Filter

open Config Lib.GoString Engine.Postgres.Stream Engine.Postgres.Dumper

/-! ### What the patterns ask for -/

/-- The name `listTables` returns. -/
def tableName (schema name : String) : String := schema ++ "." ++ name

/-- The part of a table's name after its first dot: the name without the
schema, unless the schema's own name has a dot. -/
def bareName (schema name : String) : String := ((splitTable (tableName schema name)).2).getD ""

/-- Neither name is excluded, and one of them is included. -/
def Wanted (f : TableFilter) (schema name : String) : Prop :=
  globMatchAny f.excluded (tableName schema name) = false ∧
    globMatchAny f.excluded name = false ∧
    (f.includes (tableName schema name) = true ∨ f.includes name = true)

def DataWanted (f : TableFilter) (schema name : String) : Prop :=
  Wanted f schema name ∧ f.schemaOnly.matches (tableName schema name) = false ∧
    f.schemaOnly.matches name = false

def copyOf (cat : Catalogue) (schema name : String) : Piece :=
  .copy (copyHeader schema name (cat.relation schema name).copyColumns)
    ((cat.relation schema name).rows.map copyLine)

/-- The data of a table; a partitioned table's is in its partitions. -/
def tableData (cat : Catalogue) (schema name : String) : List Piece :=
  if (cat.relation schema name).isPartitioned then
    (cat.partitions schema name).map fun p => copyOf cat p.schema p.name
  else [copyOf cat schema name]

def isCopy : Piece → Bool
  | .copy .. => true
  | _ => false

def dumpOptions (f : TableFilter) (schemaOnlyJob : Bool) : DumpOptions where
  schemaOnly := schemaOnlyJob
  apply := some f.apply

/-- In every catalogue with the table, the dump has the table exactly if the
patterns want it, and its data exactly if they want the data. A job that dumps
schemas only writes no data at all. -/
def FilterHolds (f : TableFilter) (schemaOnlyJob : Bool) (schema name : String) : Prop :=
  ∀ cat : Catalogue, tableName schema name ∈ cat.tables →
    (tableName schema name ∈ includedTables cat (dumpOptions f schemaOnlyJob) ↔
      Wanted f schema name) ∧
    (tableName schema name ∈ includedTables cat (dumpOptions f schemaOnlyJob) →
      ∀ dump, dumpTable cat (dumpOptions f schemaOnlyJob) (tableName schema name) = some dump →
        (DataWanted f schema name ∧ schemaOnlyJob = false →
          ∀ piece ∈ tableData cat schema name, piece ∈ dump.pieces) ∧
        (¬ (DataWanted f schema name ∧ schemaOnlyJob = false) →
          ∀ piece ∈ dump.pieces, isCopy piece = false))

/-- What the patterns must not do to a table whose schema has no dot in its
name. -/
structure PatternsAgree (f : TableFilter) (schemaOnlyJob : Bool) (schema name : String) : Prop where
  /-- Where the qualified name passes, the plain name is not excluded. -/
  qualifiedPasses : (f.apply (tableName schema name)).1 = true →
    globMatchAny f.excluded name = false
  /-- Where the plain name passes, the qualified name is not excluded. -/
  plainPasses : (f.apply name).1 = true → globMatchAny f.excluded (tableName schema name) = false
  /-- A schema-only pattern that matches a name of a table in the dump matches
  one that passes. -/
  schemaOnlySeen : (f.apply (tableName schema name)).1 = true ∨ (f.apply name).1 = true →
    f.schemaOnly.matches (tableName schema name) = true ∨ f.schemaOnly.matches name = true →
    schemaOnlyJob = true ∨ (f.apply (tableName schema name)).2 = true ∨ (f.apply name).2 = true

/-- The same for a schema with a dot in its name. The dumper cuts the name at
the first dot, asks the filter about what is left, and looks for the data in a
table that has this name. -/
structure DottedAgree (f : TableFilter) (schemaOnlyJob : Bool) (schema name : String) : Prop where
  qualifiedPasses : (f.apply (tableName schema name)).1 = true →
    globMatchAny f.excluded name = false
  barePasses : (f.apply (bareName schema name)).1 = true →
    globMatchAny f.excluded (tableName schema name) = false ∧
      globMatchAny f.excluded name = false ∧
      (f.includes (tableName schema name) = true ∨ f.includes name = true)
  bareSeen : globMatchAny f.excluded (tableName schema name) = false →
    (f.apply name).1 = true → f.includes (tableName schema name) = false →
    (f.apply (bareName schema name)).1 = true
  /-- No data is asked for and none is written. -/
  noData : (f.apply (tableName schema name)).1 = true ∨ (f.apply (bareName schema name)).1 = true →
    schemaOnlyJob = true ∨
      ((f.schemaOnly.matches (tableName schema name) = true ∨ f.schemaOnly.matches name = true) ∧
        ((f.apply (tableName schema name)).2 = true ∨ (f.apply (bareName schema name)).2 = true))

/-! ### The two names -/

variable {schema : String} (name : String)

theorem splitTable_tableName (noDot : '.' ∉ schema.toList) :
    splitTable (tableName schema name) = (schema, some name) := by
  have cut : (tableName schema name).toList.takeWhile (· ≠ '.') = schema.toList := by
    unfold tableName
    rw [String.toList_append, String.toList_append, List.append_assoc,
      List.takeWhile_append_of_pos (fun c member => by
        simpa using fun isDot : c = '.' => noDot (isDot ▸ member))]
    simp
  have rest : (tableName schema name).toList.drop schema.toList.length = '.' :: name.toList := by
    unfold tableName
    rw [String.toList_append, String.toList_append, List.append_assoc, List.drop_left]
    rfl
  unfold splitTable
  simp only [cut, rest, String.ofList_toList]

theorem bareName_eq (noDot : '.' ∉ schema.toList) : bareName schema name = name := by
  rw [bareName, splitTable_tableName name noDot]
  rfl

/-- Any name with a dot is cut. -/
theorem splitTable_isSome (schema name : String) :
    (splitTable (tableName schema name)).2 = some (bareName schema name) := by
  have hasDot : '.' ∈ (tableName schema name).toList := by
    simp [tableName]
  unfold bareName splitTable
  simp only
  split
  · rename_i noRest
    have whole : (tableName schema name).toList.takeWhile (· ≠ '.') =
        (tableName schema name).toList := by
      have parts := List.prefix_append_drop
        (List.takeWhile_prefix (p := (· ≠ '.')) (l := (tableName schema name).toList))
      rw [noRest, List.append_nil] at parts
      exact parts.symm
    rw [← whole] at hasDot
    exact absurd (List.mem_takeWhile_imp hasDot) (by simp)
  · rfl

/-! ### What the dumper asks -/

variable {cat : Catalogue}

theorem mem_includedTables {f : TableFilter} {schemaOnlyJob : Bool}
    {schema name : String} (listed : tableName schema name ∈ cat.tables) :
    tableName schema name ∈ includedTables cat (dumpOptions f schemaOnlyJob) ↔
      (f.apply (tableName schema name)).1 = true ∨ (f.apply (bareName schema name)).1 = true := by
  unfold includedTables
  rw [List.mem_mergeSort, List.mem_filter]
  unfold tableIncluded dumpOptions
  simp only [splitTable_isSome, Bool.or_eq_true, listed, true_and]

theorem tableSchemaOnly_eq (f : TableFilter) (schemaOnlyJob : Bool) (schema name : String) :
    tableSchemaOnly (dumpOptions f schemaOnlyJob) (tableName schema name) = true ↔
      schemaOnlyJob = true ∨ (f.apply (tableName schema name)).2 = true ∨
        (f.apply (bareName schema name)).2 = true := by
  unfold tableSchemaOnly dumpOptions
  simp only [splitTable_isSome, Bool.or_eq_true]

/-! ### Data in the dump of a table -/

def NoCopy (pieces : List Piece) : Prop := ∀ piece ∈ pieces, isCopy piece = false

theorem noCopy_append {first second : List Piece} (firstNone : NoCopy first)
    (secondNone : NoCopy second) : NoCopy (first ++ second) := by
  intro piece member
  rcases List.mem_append.mp member with inFirst | inSecond
  · exact firstNone piece inFirst
  · exact secondNone piece inSecond

theorem noCopy_map {α : Type} (items : List α) (text : α → String) :
    NoCopy (items.map fun item => .sql (text item)) := by
  intro piece member
  obtain ⟨item, -, rfl⟩ := List.mem_map.mp member
  rfl

theorem noCopy_getCreateTable (cat : Catalogue) (schema name : String) :
    NoCopy (getCreateTable cat schema name) := by
  have gap : NoCopy [.gap] := by simp [NoCopy, isCopy]
  have parts : NoCopy (getPartitions cat schema name) := noCopy_map _ _
  have uniques : NoCopy (getUniqueConstraints schema name (cat.relation schema name)) :=
    noCopy_map _ _
  unfold getCreateTable
  refine noCopy_append (noCopy_append (noCopy_append (noCopy_append (noCopy_append (noCopy_append
    (noCopy_append ?_ (noCopy_map _ _)) uniques) ?_) (noCopy_map _ _)) gap) (noCopy_map _ _)) ?_
  · simp [NoCopy, isCopy]
  · split
    · simp [NoCopy]
    · exact gap
  · split
    · exact noCopy_append gap gap
    · exact noCopy_append (noCopy_append gap parts) gap

theorem noCopy_tableOwner (cat : Catalogue) (schema name : String) :
    NoCopy (tableOwner cat schema name) := by
  unfold tableOwner
  simp only
  split
  · simp [NoCopy]
  · simp [NoCopy, isCopy]

theorem mem_concat {dumps : List TableDump} {piece : Piece} :
    piece ∈ (TableDump.concat dumps).pieces ↔ ∃ dump ∈ dumps, piece ∈ dump.pieces := by
  induction dumps with
  | nil => simp [TableDump.concat]
  | cons dump rest ih =>
    rw [show (TableDump.concat (dump :: rest)).pieces =
      dump.pieces ++ (TableDump.concat rest).pieces from rfl, List.mem_append,
      ih, List.exists_mem_cons_iff]

variable {dump : TableDump}

theorem noCopy_dumpPartitions (fuel : Nat) {schema name : String}
    (dumped : dumpPartitions cat true fuel schema name = some dump) :
    NoCopy dump.pieces := by
  induction fuel generalizing schema name dump with
  | zero => cases dumped
  | succ fuel ih =>
    rw [dumpPartitions] at dumped
    obtain ⟨dumps, each, rfl⟩ := Option.map_eq_some_iff.mp dumped
    have own : ∀ p nested, NoCopy nested.pieces →
        NoCopy (partitionDump cat true schema name p nested).pieces := by
      intro p nested nestedNone
      refine noCopy_append (noCopy_append (noCopy_append ?_ (noCopy_tableOwner cat _ _)) ?_)
        nestedNone
      · exact @noCopy_append [_] _ (by simp [NoCopy, isCopy]) (noCopy_getCreateTable cat _ _)
      · simp [NoCopy]
    intro piece member
    obtain ⟨part, inDumps, inPart⟩ := mem_concat.mp member
    have noneOfEach : ∀ p ∈ cat.partitions schema name, ∀ result,
        (if (cat.relation p.schema p.name).isPartitioned then
          (dumpPartitions cat true fuel p.schema p.name).map
            (partitionDump cat true schema name p)
        else some (partitionDump cat true schema name p {})) = some result →
        NoCopy result.pieces := by
      intro p _ result isResult
      split at isResult
      · obtain ⟨nested, isNested, rfl⟩ := Option.map_eq_some_iff.mp isResult
        exact own p nested (ih isNested)
      · rw [← Option.some.inj isResult]
        exact own p {} (by simp [NoCopy])
    exact mapM_some_forall each noneOfEach part inDumps piece inPart

theorem mapM_some_mem {α β : Type} {f : α → Option β} {items : List α} {results : List β}
    (all : items.mapM f = some results) {item : α} (member : item ∈ items) :
    ∃ result ∈ results, f item = some result := by
  induction items generalizing results with
  | nil => cases member
  | cons head rest ih =>
    rw [List.mapM_cons] at all
    obtain ⟨first, isFirst, later⟩ := Option.bind_eq_some_iff.mp all
    obtain ⟨others, isRest, joined⟩ := Option.bind_eq_some_iff.mp later
    rw [← Option.some.inj joined]
    rcases List.mem_cons.mp member with rfl | inRest
    · exact ⟨first, List.mem_cons_self, isFirst⟩
    · obtain ⟨result, inOthers, isResult⟩ := ih isRest inRest
      exact ⟨result, List.mem_cons_of_mem _ inOthers, isResult⟩

theorem copyOf_mem_dumpPartitions {fuel : Nat} {schema name : String}
    (dumped : dumpPartitions cat false fuel schema name = some dump)
    {p : PartRef} (partition : p ∈ cat.partitions schema name) :
    copyOf cat p.schema p.name ∈ dump.pieces := by
  cases fuel with
  | zero => cases dumped
  | succ fuel =>
    rw [dumpPartitions] at dumped
    obtain ⟨dumps, each, rfl⟩ := Option.map_eq_some_iff.mp dumped
    obtain ⟨part, inDumps, isPart⟩ := mapM_some_mem each partition
    have own : ∀ nested, copyOf cat p.schema p.name ∈
        (partitionDump cat false schema name p nested).pieces := by
      intro nested
      simp [partitionDump, copyData, copyOf]
    refine mem_concat.mpr ⟨part, inDumps, ?_⟩
    split at isPart
    · obtain ⟨nested, -, rfl⟩ := Option.map_eq_some_iff.mp isPart
      exact own nested
    · rw [← Option.some.inj isPart]
      exact own {}

variable {options : DumpOptions}

/-- What a table is dumped with where its schema alone is wanted. -/
theorem noCopy_dumpTable {table : String}  (dumped : dumpTable cat options table = some dump)
    (schemaOnly : tableSchemaOnly options table = true) : NoCopy dump.pieces := by
  have own : NoCopy (.comment ("Table: " ++ (splitTable table).1 ++ "." ++
      (splitTable table).2.getD "") ::
        getCreateTable cat (splitTable table).1 ((splitTable table).2.getD "") ++
        tableOwner cat (splitTable table).1 ((splitTable table).2.getD "")) :=
    noCopy_append (@noCopy_append [_] _ (by simp [NoCopy, isCopy])
      (noCopy_getCreateTable cat _ _)) (noCopy_tableOwner cat _ _)
  unfold dumpTable at dumped
  simp only [schemaOnly, if_true] at dumped
  split at dumped
  · obtain ⟨nested, isNested, rfl⟩ := Option.map_eq_some_iff.mp dumped
    exact noCopy_append own (noCopy_dumpPartitions 9 isNested)
  · rw [← Option.some.inj dumped]
    exact own

/-- The data that is dumped is that of the table the name is cut into. -/
theorem tableData_mem_dumpTable {table : String}  (dumped : dumpTable cat options table = some dump)
    (withData : tableSchemaOnly options table = false) :
    ∀ piece ∈ tableData cat (splitTable table).1 ((splitTable table).2.getD ""),
      piece ∈ dump.pieces := by
  intro piece member
  unfold dumpTable at dumped
  unfold tableData at member
  simp only [withData, Bool.false_eq_true, if_false] at dumped
  split at dumped
  · rename_i partitioned
    rw [if_pos partitioned] at member
    obtain ⟨nested, isNested, rfl⟩ := Option.map_eq_some_iff.mp dumped
    obtain ⟨p, inPartitions, rfl⟩ := List.mem_map.mp member
    exact List.mem_append_right _ (copyOf_mem_dumpPartitions isNested inPartitions)
  · rename_i ordinary
    rw [if_neg ordinary, List.mem_singleton] at member
    rw [← Option.some.inj dumped, member]
    simp [copyData, copyOf]

/-! ### A schema with a dot in its name -/

theorem copyHeader_dotted {first rest : List Char} (name other : String) (columns : List String) :
    copyHeader (String.ofList (first ++ '.' :: rest)) name columns ≠
      copyHeader (String.ofList first) other columns := by
  intro same
  have chars := congrArg String.toList same
  simp only [copyHeader, qualified, String.toList_append, toList_quotePGIdent,
    String.toList_ofList, List.flatMap_append, List.flatMap_cons, List.append_assoc,
    List.append_cancel_left_eq, List.cons_append, List.cons.injEq, true_and] at chars
  simp at chars

/-- The first dot of a table's name, where the schema has one. -/
theorem splitTable_dotted (dotted : '.' ∈ schema.toList) :
    ∃ first rest, schema = String.ofList (first ++ '.' :: rest) ∧
      (splitTable (tableName schema name)).1 = String.ofList first := by
  obtain ⟨first, rest, shape, noDot⟩ := List.eq_append_cons_of_mem dotted
  have cut : (tableName schema name).toList.takeWhile (· ≠ '.') = first := by
    unfold tableName
    rw [String.toList_append, String.toList_append, shape, List.append_assoc, List.append_assoc,
      List.takeWhile_append_of_pos (fun c member => by
        simpa using fun isDot : c = '.' => noDot (isDot ▸ member))]
    simp
  refine ⟨first, rest, by rw [← shape, String.ofList_toList], ?_⟩
  have tail : (tableName schema name).toList.drop first.length =
      '.' :: (rest ++ '.' :: name.toList) := by
    unfold tableName
    rw [String.toList_append, String.toList_append, shape, List.append_assoc, List.append_assoc,
      List.drop_left]
    simp
  unfold splitTable
  simp only [cut, tail]

def oneTable (schema name : String) : Catalogue where
  dbName := "db"
  tables := [tableName schema name]

/-- The data in the dump of the one table. -/
theorem copy_of_mem_dumpTable {schema name table : String}
    (dumped : dumpTable (oneTable schema name) options table = some dump)
    {piece : Piece} (member : piece ∈ dump.pieces) (isData : isCopy piece = true) :
    piece = .copy (copyHeader (splitTable table).1 ((splitTable table).2.getD "") []) [] := by
  by_cases schemaOnly : tableSchemaOnly options table = true
  · rw [noCopy_dumpTable dumped schemaOnly piece member] at isData
    cases isData
  · unfold dumpTable at dumped
    have ordinary : ∀ s n, ((oneTable schema name).relation s n).isPartitioned = false :=
      fun _ _ => rfl
    simp only [schemaOnly, ordinary, Bool.false_eq_true, if_false] at dumped
    rw [← Option.some.inj dumped] at member
    rcases List.mem_append.mp member with inOwn | inData
    · have own := noCopy_append (@noCopy_append [.comment ("Table: " ++ (splitTable table).1 ++
        "." ++ (splitTable table).2.getD "")] _ (by simp [NoCopy, isCopy])
        (noCopy_getCreateTable (oneTable schema name) (splitTable table).1
          ((splitTable table).2.getD "")))
        (noCopy_tableOwner (oneTable schema name) (splitTable table).1
          ((splitTable table).2.getD "")) piece inOwn
      rw [own] at isData
      cases isData
    · unfold copyData at inData
      rcases List.mem_cons.mp inData with isCopyPiece | isGap
      · exact isCopyPiece
      · rw [List.mem_singleton.mp isGap] at isData
        cases isData

/-- A dump of the one table always comes to an end. -/
theorem dumpTable_oneTable (options : DumpOptions) (schema name table : String) :
    ∃ dump, dumpTable (oneTable schema name) options table = some dump := by
  unfold dumpTable
  have ordinary : ∀ s n, ((oneTable schema name).relation s n).isPartitioned = false :=
    fun _ _ => rfl
  simp only [ordinary, Bool.false_eq_true, if_false]
  split
  · exact ⟨_, rfl⟩
  · exact ⟨_, rfl⟩

/-! ### The filter in the dump -/

theorem wanted_iff {f : TableFilter} {schema name : String} : Wanted f schema name ↔
      globMatchAny f.excluded (tableName schema name) = false ∧
        globMatchAny f.excluded name = false ∧
        ((f.apply (tableName schema name)).1 = true ∨ (f.apply name).1 = true) := by
  unfold Wanted
  rw [f.apply_fst, f.apply_fst]
  constructor
  · rintro ⟨notQualified, notPlain, included⟩
    simpa [notQualified, notPlain] using included
  · rintro ⟨notQualified, notPlain, passes⟩
    simpa [notQualified, notPlain] using passes

/-- What must hold of the tables and of the data, with the catalogue away. -/
theorem filterHolds_iff_names {f : TableFilter} {schemaOnlyJob : Bool} {schema name : String} :
    FilterHolds f schemaOnlyJob schema name ↔
      (((f.apply (tableName schema name)).1 = true ∨ (f.apply (bareName schema name)).1 = true) ↔
        Wanted f schema name) ∧
      ((f.apply (tableName schema name)).1 = true ∨ (f.apply (bareName schema name)).1 = true →
        (DataWanted f schema name ∧ schemaOnlyJob = false → '.' ∉ schema.toList ∧
          ¬ (schemaOnlyJob = true ∨ (f.apply (tableName schema name)).2 = true ∨
            (f.apply (bareName schema name)).2 = true)) ∧
        (¬ (DataWanted f schema name ∧ schemaOnlyJob = false) →
          schemaOnlyJob = true ∨ (f.apply (tableName schema name)).2 = true ∨
            (f.apply (bareName schema name)).2 = true)) := by
  constructor
  · intro holds
    have listed : tableName schema name ∈ (oneTable schema name).tables :=
      List.mem_singleton_self _
    obtain ⟨dumped, data⟩ := holds (oneTable schema name) listed
    rw [mem_includedTables listed] at dumped data
    refine ⟨dumped, fun passes => ?_⟩
    obtain ⟨dump, isDump⟩ := dumpTable_oneTable (dumpOptions f schemaOnlyJob) schema name
      (tableName schema name)
    obtain ⟨written, withheld⟩ := data passes dump isDump
    rw [← tableSchemaOnly_eq]
    constructor
    · intro wanted
      have inDump : copyOf (oneTable schema name) schema name ∈ dump.pieces :=
        written wanted _ (List.mem_singleton_self _)
      constructor
      · intro dotted
        obtain ⟨first, rest, isSchema, isFirst⟩ := splitTable_dotted name dotted
        have other := copy_of_mem_dumpTable isDump inDump rfl
        rw [isFirst] at other
        have sameHeader : copyHeader schema name [] = copyHeader (String.ofList first)
            ((splitTable (tableName schema name)).2.getD "") [] := (Piece.copy.inj other).1
        rw [show copyHeader schema name [] =
          copyHeader (String.ofList (first ++ '.' :: rest)) name [] by rw [← isSchema]]
          at sameHeader
        exact copyHeader_dotted _ _ _ sameHeader
      · intro schemaOnly
        have withheldToo := noCopy_dumpTable isDump schemaOnly _ inDump
        cases withheldToo
    · intro notWanted
      by_contra withData
      have inDump := tableData_mem_dumpTable isDump (Bool.eq_false_iff.mpr withData)
        (copyOf (oneTable schema name) (splitTable (tableName schema name)).1
          ((splitTable (tableName schema name)).2.getD "")) (List.mem_singleton_self _)
      have noData := withheld notWanted _ inDump
      cases noData
  · rintro ⟨dumped, data⟩ cat listed
    rw [mem_includedTables listed]
    refine ⟨dumped, fun passes dump isDump => ?_⟩
    obtain ⟨written, withheld⟩ := data passes
    rw [← tableSchemaOnly_eq] at written withheld
    constructor
    · intro wanted
      obtain ⟨noDot, withData⟩ := written wanted
      have inDump := tableData_mem_dumpTable isDump (Bool.eq_false_iff.mpr withData)
      rw [splitTable_tableName name noDot] at inDump
      exact inDump
    · intro notWanted
      exact noCopy_dumpTable isDump (withheld notWanted)

end DbBackup.Engine.Postgres.Filter
