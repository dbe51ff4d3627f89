import DbBackup.Engine.Postgres.Dumper
import DbBackup.Lib.FirstByKey

/-!
Owns `dumpBlobs`, `dumpOrphanBlobs` and `writeBlobs` of
`internal/database/engine/postgres/postgres.go`: which large objects a dump holds.

Contract: with an oid column in any dumped table, the oids in those columns are written
and the catalogue of large objects is not asked; without one, the catalogue is written.
So the dump holds exactly the large objects of the database when no dumped table has an
oid column or those columns hold exactly their oids (`complete_iff`).

A query that fails is `none`: it is logged and its table or column is passed over.
-/

set_option linter.all false

namespace DbBackup.Engine.Postgres.LargeObjects

open Engine.Postgres.Dumper Lib.FirstByKey

/-! ### The server -/

/-- A row of `pg_largeobject`. -/
structure Page where
  loid : UInt32
  pageno : UInt32
  data : List UInt8
deriving DecidableEq

/-- The answers to the queries of `dumpBlobs`. -/
structure Server where
  /-- `pg_largeobject_metadata`, by oid. -/
  objects : List UInt32
  objects_nodup : objects.Nodup
  /-- `pg_largeobject`, by oid and page. -/
  pages : List Page
  pages_of : ∀ page ∈ pages, page.loid ∈ objects
  loColumns : String → String → Option (List String)
  /-- The distinct values of a column that are not null. -/
  oidsIn : String → String → String → Option (List UInt32)

/-! ### What is written -/

inductive Write where
  | create (oid : UInt32)
  | deletePages (oid : UInt32)
  | copyStart
  | page (page : Page)
  | copyEnd
deriving DecidableEq

def hexByte (byte : UInt8) : String :=
  String.ofList [Nat.digitChar (byte.toNat / 16), Nat.digitChar (byte.toNat % 16)]

def Write.text : Write → String
  | .create oid =>
    "DO $$BEGIN IF NOT EXISTS (SELECT 1 FROM pg_catalog.pg_largeobject_metadata WHERE oid = " ++
      toString oid ++ ") THEN PERFORM pg_catalog.lo_create(" ++ toString oid ++
      "); END IF; END$$;\n"
  | .deletePages oid =>
    "DELETE FROM pg_catalog.pg_largeobject WHERE loid = " ++ toString oid ++ ";\n"
  | .copyStart => "COPY pg_catalog.pg_largeobject (loid, pageno, data) FROM stdin;\n"
  | .page row =>
    toString row.loid ++ "\t" ++ toString row.pageno ++ "\t\\\\x" ++
      String.join (row.data.map hexByte) ++ "\n"
  | .copyEnd => "\\.\n\n"

variable (server : Server)

def writeBlobs (canRead : Bool) (ordered : List UInt32) : List Write :=
  if !canRead then []
  else
    ordered.flatMap (fun oid => [Write.create oid, .deletePages oid]) ++
      Write.copyStart ::
        (server.pages.filter fun page => ordered.contains page.loid).map .page ++ [Write.copyEnd]

/-- The oids as they come, without those seen before. -/
def unseen (oids : List UInt32) : List UInt32 :=
  collect id [] oids

/-- `seen` starts empty. -/
def dumpOrphanBlobs (canRead : Bool) : List Write :=
  let ordered := unseen server.objects
  if ordered = [] then [] else writeBlobs server canRead ordered

/-- `loCols`: the tables that have an oid column, with these columns. -/
def loCols (tables : List String) : List (String × String × List String) :=
  tables.filterMap fun table =>
    match splitTable table with
    | (schema, some name) =>
      match server.loColumns schema name with
      | some (column :: columns) => some (schema, name, column :: columns)
      | _ => none
    | (_, none) => none

def columnOids (tables : List String) : List UInt32 :=
  (loCols server tables).flatMap fun entry =>
    entry.2.2.flatMap fun column => (server.oidsIn entry.1 entry.2.1 column).getD []

def dumpBlobs (schemaOnly canRead : Bool) (tables : List String) : List Write :=
  if schemaOnly then []
  else if loCols server tables = [] then dumpOrphanBlobs server canRead
  else
    let ordered := (unseen (columnOids server tables)).mergeSort fun a b => a ≤ b
    if ordered = [] then [] else writeBlobs server canRead ordered

/-! ### What the dump holds -/

def created (writes : List Write) : List UInt32 :=
  writes.filterMap fun write =>
    match write with
    | .create oid => some oid
    | _ => none

def pagesIn (writes : List Write) : List Page :=
  writes.filterMap fun write =>
    match write with
    | .page page => some page
    | _ => none

/-- Every large object is created once with all its pages, and no other oid is. -/
def Complete (writes : List Write) : Prop :=
  (created writes).Perm server.objects ∧ (pagesIn writes).Perm server.pages

variable {server}

theorem nodup_unseen (oids : List UInt32) : (unseen oids).Nodup := by
  have distinct := (collect_spec id oids).distinct
  rwa [List.map_id] at distinct

theorem mem_unseen {oids : List UInt32} {oid : UInt32} : oid ∈ unseen oids ↔ oid ∈ oids := by
  constructor
  · exact (collect_spec id oids).from_entries oid
  · intro member
    obtain ⟨same, isIn, rfl⟩ := (collect_spec id oids).covers oid member
    exact isIn

theorem created_writeBlobs (ordered : List UInt32) :
    created (writeBlobs server true ordered) = ordered := by
  have pairs : created (ordered.flatMap fun oid => [.create oid, .deletePages oid]) = ordered := by
    induction ordered with
    | nil => rfl
    | cons oid rest ih =>
      change oid :: created (rest.flatMap _) = _
      rw [ih]
  have data : ∀ pages : List Page, created (pages.map .page ++ [Write.copyEnd]) = [] := by
    intro pages
    induction pages with
    | nil => rfl
    | cons page rest ih => exact ih
  rw [writeBlobs, if_neg (by decide), created, List.append_assoc, List.filterMap_append]
  change created _ ++ created (_ :: (_ ++ [Write.copyEnd])) = _
  rw [pairs]
  change ordered ++ created (_ ++ [Write.copyEnd]) = _
  rw [data, List.append_nil]

theorem pagesIn_writeBlobs (ordered : List UInt32) :
    pagesIn (writeBlobs server true ordered) =
      server.pages.filter fun page => ordered.contains page.loid := by
  have pairs : pagesIn (ordered.flatMap fun oid => [.create oid, .deletePages oid]) = [] := by
    induction ordered with
    | nil => rfl
    | cons oid rest ih => exact ih
  have data : ∀ pages : List Page, pagesIn (pages.map .page ++ [Write.copyEnd]) = pages := by
    intro pages
    induction pages with
    | nil => rfl
    | cons page rest ih => exact congrArg (page :: ·) ih
  rw [writeBlobs, if_neg (by decide), pagesIn, List.append_assoc, List.filterMap_append]
  change pagesIn _ ++ pagesIn (_ :: (_ ++ [Write.copyEnd])) = _
  rw [pairs, List.nil_append]
  exact data _

/-- Writing the oids `ordered`, or nothing where there are none. -/
theorem complete_of_ordered {ordered : List UInt32} (distinct : ordered.Nodup) :
    Complete server (if ordered = [] then [] else writeBlobs server true ordered) ↔
      ∀ oid, oid ∈ ordered ↔ oid ∈ server.objects := by
  have written : created (if ordered = [] then [] else writeBlobs server true ordered) =
        ordered ∧
      pagesIn (if ordered = [] then [] else writeBlobs server true ordered) =
        server.pages.filter fun page => ordered.contains page.loid := by
    by_cases none : ordered = []
    · subst none
      refine ⟨rfl, ?_⟩
      rw [if_pos rfl]
      exact (List.filter_eq_nil_iff.mpr fun page _ => by simp).symm
    · rw [if_neg none]
      exact ⟨created_writeBlobs ordered, pagesIn_writeBlobs ordered⟩
  rw [Complete, written.1, written.2]
  constructor
  · exact fun complete oid => complete.1.mem_iff
  · intro same
    refine ⟨(List.perm_ext_iff_of_nodup distinct server.objects_nodup).mpr same, ?_⟩
    have all : (server.pages.filter fun page => ordered.contains page.loid) = server.pages := by
      refine List.filter_eq_self.mpr fun page isPage => ?_
      rw [List.contains_iff_mem]
      exact (same page.loid).mpr (server.pages_of page isPage)
    rw [all]

/-- The dumped tables have an oid column. -/
def HasOidColumn (server : Server) (tables : List String) : Prop :=
  ∃ table ∈ tables, ∃ schema name columns, splitTable table = (schema, some name) ∧
    server.loColumns schema name = some columns ∧ columns ≠ []

/-- The oid stands in an oid column of the dumped tables. -/
def InColumns (server : Server) (tables : List String) (oid : UInt32) : Prop :=
  ∃ table ∈ tables, ∃ schema name columns, splitTable table = (schema, some name) ∧
    server.loColumns schema name = some columns ∧
      ∃ column ∈ columns, ∃ oids, server.oidsIn schema name column = some oids ∧ oid ∈ oids

theorem mem_loCols {tables : List String} {entry : String × String × List String} :
    entry ∈ loCols server tables ↔
      ∃ table ∈ tables, splitTable table = (entry.1, some entry.2.1) ∧
        server.loColumns entry.1 entry.2.1 = some entry.2.2 ∧ entry.2.2 ≠ [] := by
  obtain ⟨schema, name, columns⟩ := entry
  rw [loCols, List.mem_filterMap]
  refine exists_congr fun table => and_congr_right fun _ => ?_
  obtain ⟨tableSchema, tableName⟩ := splitTable table
  cases tableName with
  | none => simp
  | some tableName =>
    cases found : server.loColumns tableSchema tableName with
    | none =>
      simp only [found]
      constructor
      · exact fun isNone => nomatch isNone
      · rintro ⟨split, isSome, -⟩
        obtain ⟨rfl, isName⟩ := Prod.mk.inj split
        rw [Option.some.inj isName] at found
        rw [found] at isSome
        exact nomatch isSome
    | some foundColumns =>
      cases foundColumns with
      | nil =>
        simp only [found]
        constructor
        · exact fun isNone => nomatch isNone
        · rintro ⟨split, isColumns, nonempty⟩
          obtain ⟨rfl, isName⟩ := Prod.mk.inj split
          rw [Option.some.inj isName] at found
          rw [found] at isColumns
          exact absurd (Option.some.inj isColumns).symm nonempty
      | cons column others =>
        simp only [found, Option.some.injEq, Prod.mk.injEq]
        constructor
        · rintro ⟨rfl, rfl, rfl⟩
          exact ⟨⟨rfl, rfl⟩, found, List.cons_ne_nil _ _⟩
        · rintro ⟨⟨rfl, rfl⟩, isColumns, -⟩
          rw [found] at isColumns
          exact ⟨rfl, rfl, Option.some.inj isColumns⟩

theorem loCols_eq_nil_iff (tables : List String) :
    loCols server tables = [] ↔ ¬ HasOidColumn server tables := by
  rw [List.eq_nil_iff_forall_not_mem]
  constructor
  · rintro none ⟨table, isTable, schema, name, columns, split, found, nonempty⟩
    exact none (schema, name, columns) (mem_loCols.mpr ⟨table, isTable, split, found, nonempty⟩)
  · rintro none ⟨schema, name, columns⟩ member
    obtain ⟨table, isTable, split, found, nonempty⟩ := mem_loCols.mp member
    exact none ⟨table, isTable, schema, name, columns, split, found, nonempty⟩

theorem mem_columnOids {tables : List String} {oid : UInt32} :
    oid ∈ columnOids server tables ↔ InColumns server tables oid := by
  rw [columnOids, List.mem_flatMap]
  constructor
  · rintro ⟨⟨schema, name, columns⟩, member, inEntry⟩
    obtain ⟨table, isTable, split, found, -⟩ := mem_loCols.mp member
    obtain ⟨column, isColumn, inColumn⟩ := List.mem_flatMap.mp inEntry
    refine ⟨table, isTable, schema, name, columns, split, found, column, isColumn, ?_⟩
    cases oids : server.oidsIn schema name column with
    | none =>
      rw [oids] at inColumn
      exact absurd inColumn List.not_mem_nil
    | some values =>
      rw [oids] at inColumn
      exact ⟨values, rfl, inColumn⟩
  · rintro ⟨table, isTable, schema, name, columns, split, found, column, isColumn, oids, isOids, inOids⟩
    refine ⟨(schema, name, columns), mem_loCols.mpr
      ⟨table, isTable, split, found, List.ne_nil_of_mem isColumn⟩,
      List.mem_flatMap.mpr ⟨column, isColumn, ?_⟩⟩
    rw [isOids]
    exact inOids

/-- With oid columns the dump holds what they hold, whether or not it is in the catalogue. -/
theorem complete_iff (server : Server) (tables : List String) :
    Complete server (dumpBlobs server false true tables) ↔
      ¬ HasOidColumn server tables ∨
        ∀ oid, InColumns server tables oid ↔ oid ∈ server.objects := by
  by_cases columns : HasOidColumn server tables
  · have some : ¬ loCols server tables = [] := fun none =>
      (loCols_eq_nil_iff tables).mp none columns
    have distinct : ((unseen (columnOids server tables)).mergeSort fun a b => a ≤ b).Nodup :=
      (List.mergeSort_perm _ _).nodup_iff.mpr (nodup_unseen _)
    have members : ∀ oid,
        oid ∈ (unseen (columnOids server tables)).mergeSort (fun a b => a ≤ b) ↔
          InColumns server tables oid := by
      intro oid
      rw [List.mem_mergeSort, mem_unseen, mem_columnOids]
    rw [dumpBlobs, if_neg (by decide), if_neg some]
    simp only
    rw [complete_of_ordered distinct]
    simp only [members]
    exact ⟨.inr, fun either => either.resolve_left (not_not_intro columns)⟩
  · have none : loCols server tables = [] := (loCols_eq_nil_iff tables).mpr columns
    rw [dumpBlobs, if_neg (by decide), if_pos none, dumpOrphanBlobs]
    rw [complete_of_ordered (nodup_unseen _)]
    exact iff_of_true (fun oid => mem_unseen) (.inl columns)

theorem pages_of_one : ∀ page ∈ [(⟨16400, 0, [1]⟩ : Page)], page.loid ∈ [(16400 : UInt32)] := by
  decide

/-- One large object, and a table whose oid column refers to nothing. -/
def unreferenced : Server where
  objects := [16400]
  objects_nodup := List.nodup_singleton _
  pages := [⟨16400, 0, [1]⟩]
  pages_of := pages_of_one
  loColumns _ _ := some ["owner"]
  oidsIn _ _ _ := some [10]

theorem unreferenced_lost :
    created (dumpBlobs unreferenced false true ["public.t"]) = [10] ∧
      ¬ Complete unreferenced (dumpBlobs unreferenced false true ["public.t"]) := by
  have ordered : (unseen (columnOids unreferenced ["public.t"])).mergeSort
      (fun a b => a ≤ b) = [10] := by
    have collected : columnOids unreferenced ["public.t"] = [10] := by decide
    rw [collected]
    exact List.mergeSort_singleton _
  have notOrphan : ¬ loCols unreferenced ["public.t"] = [] := by decide
  have written : dumpBlobs unreferenced false true ["public.t"] =
      writeBlobs unreferenced true [10] := by
    rw [dumpBlobs, if_neg (by decide), if_neg notOrphan]
    simp only
    rw [ordered, if_neg (List.cons_ne_nil _ _)]
  rw [written]
  refine ⟨created_writeBlobs [10], ?_⟩
  rintro ⟨isPerm, -⟩
  rw [created_writeBlobs] at isPerm
  have member : (10 : UInt32) ∈ unreferenced.objects := isPerm.mem_iff.mp List.mem_cons_self
  exact absurd member (by decide)

end DbBackup.Engine.Postgres.LargeObjects
