import DbBackup.Engine.Postgres.Partitions
import Mathlib.Data.List.Count
import Mathlib.Data.List.Flatten
import Mathlib.Data.List.Perm.Basic

/-!
Owns the dump of all listed tables with their partitions, and its place in the dump of the
database.

Contract: where no listed table has a dot in its schema, the rows of every table are copied
once and every partition is attached once, after both tables were created
(`dumpTables_spec`). The statements `CREATE TABLE` are not one for each relation:
`getCreateTable` writes one `PARTITION OF` for each partition, and `dumpPartitions` creates
the same partition again, so `dumpedOnce_iff` allows no partitions at all.
-/

set_option linter.all false

namespace DbBackup.Engine.Postgres.TableForest

open Engine.Postgres.Dumper Engine.Postgres.Filter Engine.Postgres.Partitions
  Engine.Postgres.StatementNames Engine.Postgres.Stream

/-! ### The property -/

/-- What `dumpTable` writes for the tables, one after another. -/
def dumpTables (cat : Catalogue) : Option TableDump :=
  ((includedTables cat {}).mapM (dumpTable cat {})).map TableDump.concat

/-- Every leaf's rows are copied once. -/
def RowsOnce (f : Forest) (tables : TableDump) : Prop :=
  ∀ r ∈ relations f.cat f.roots, (f.cat.relation r.1 r.2).isPartitioned = false →
    (copiedIn tables.pieces).filter (fun copy => copy.1 = nameOf r) = [(nameOf r, rowsOf f.cat r)]

/-- Every partition is attached once, to its parent, and both were created before. -/
def AttachedOnce (f : Forest) (tables : TableDump) : Prop :=
  ∀ r ∈ relations f.cat f.roots, ∀ p ∈ f.cat.partitions r.1 r.2,
    (attachedIn tables.attach).filter (fun attach => attach.2 = nameOf (PartRef.rel p)) =
        [(nameOf r, nameOf (PartRef.rel p))] ∧
      nameOf r ∈ createdIn tables.pieces ∧ nameOf (PartRef.rel p) ∈ createdIn tables.pieces

def CreatedOnce (f : Forest) (tables : TableDump) : Prop :=
  ∀ r ∈ relations f.cat f.roots, (createdIn tables.pieces).count (nameOf r) = 1

/-- The tables come first, and what is attached after all of them. -/
def InOrder (cat : Catalogue) (tables : TableDump) : Prop :=
  ∃ front back, dumpDatabase cat {} =
    some (front ++ tables.pieces ++ headed "Attach partitions" tables.attach ++ back)

def DumpedOnce (f : Forest) : Prop :=
  ∃ tables, dumpTables f.cat = some tables ∧ CreatedOnce f tables ∧ RowsOnce f tables ∧
    AttachedOnce f tables ∧ InOrder f.cat tables

def NoDots (f : Forest) : Prop := ∀ r ∈ f.roots, '.' ∉ r.1.toList

def NoPartitions (f : Forest) : Prop := ∀ r ∈ f.roots, f.cat.partitions r.1 r.2 = []

/-- What `dumpDatabase` writes before the tables. -/
def beforeTables (cat : Catalogue) : List Piece :=
  [Piece.comment ("Database: " ++ cat.dbName)] ++ dumpDrops cat (includedTables cat {}) ++
    dumpSchemas cat {} (includedTables cat {}) ++ cat.other.extensionsAndCollations ++
    cat.types.flatMap dumpType ++ cat.other.routines ++
    headed "Domain checks" (cat.types.flatMap getDomainChecks) ++ cat.other.foreignObjects ++
    dumpSequences cat

variable {cat : Catalogue} {tables : TableDump}

theorem inOrder_of_dumpTables (isTables : dumpTables cat = some tables) : InOrder cat tables := by
  rw [dumpTables] at isTables
  obtain ⟨whole, isWhole, back, rfl⟩ : ∃ whole, dumpDatabase cat {} = some whole ∧
      beforeTables cat ++ tables.pieces ++ headed "Attach partitions" tables.attach <+:
        whole := by
    rw [dumpDatabase, isTables]
    refine ⟨_, rfl, ?_⟩
    -- eleven parts follow the statements that attach
    iterate 11 apply List.prefix_append_of_prefix
    exact List.prefix_rfl
  exact ⟨beforeTables cat, back, isWhole⟩

/-! ### One listed table -/

def keyOf (r : Rel) : String := tableName r.1 r.2

/-- The relations whose rows are copied: all but the table itself where it is partitioned. -/
def copiedRels (cat : Catalogue) (r : Rel) : List Rel :=
  (if (cat.relation r.1 r.2).isPartitioned then [] else [r]) ++ descendants cat 8 r

structure DumpsRoot (cat : Catalogue) (r : Rel) (dump : TableDump) : Prop where
  copies : copiedIn dump.pieces = (copiedRels cat r).map fun d => (nameOf d, rowsOf cat d)
  attaches : dump.attach.map attached =
    (edges cat 8 r).map fun e => some (nameOf e.1, nameOf e.2)
  creates : createdIn dump.pieces = nameOf r :: partNames cat r ++ createdBelow cat 8 r

/-- What `dumpTable` writes for the table itself. -/
def startPieces (cat : Catalogue) (r : Rel) : List Piece :=
  .comment ("Table: " ++ r.1 ++ "." ++ r.2) :: getCreateTable cat r.1 r.2 ++
    tableOwner cat r.1 r.2

/-- The relation that the text of a table is taken for. -/
def relOf (table : String) : Rel := ((splitTable table).1, (splitTable table).2.getD "")

theorem relOf_keyOf {r : Rel} (noDot : '.' ∉ r.1.toList) : relOf (keyOf r) = r := by
  rw [relOf, keyOf, splitTable_tableName r.2 noDot]
  rfl

theorem dumpTable_eq (cat : Catalogue) (table : String) : dumpTable cat {} table =
      if (cat.relation (relOf table).1 (relOf table).2).isPartitioned then
        (dumpPartitions cat false 9 (relOf table).1 (relOf table).2).map (TableDump.append
          { pieces := startPieces cat (relOf table),
            constraints := lateConstraints cat (relOf table).1 (relOf table).2 })
      else some
        { pieces := startPieces cat (relOf table) ++
            copyData cat (relOf table).1 (relOf table).2,
          constraints := lateConstraints cat (relOf table).1 (relOf table).2 } := rfl

theorem createdIn_startPieces (f : Forest) {r : Rel} (named : Named r) :
    createdIn (startPieces f.cat r) = nameOf r :: partNames f.cat r := by
  have own := f.readable.createdIn_named named
  have owner := createdIn_tableOwner f.cat r.1 r.2
  rw [createdIn] at own owner ⊢
  rw [startPieces, List.filterMap_append, List.filterMap_cons_none rfl, own, owner,
    List.append_nil]

theorem copiedIn_startPieces (cat : Catalogue) (r : Rel) : copiedIn (startPieces cat r) = [] := by
  have own := copiedIn_getCreateTable cat r
  have owner := copiedIn_tableOwner cat r.1 r.2
  rw [copiedIn] at own owner ⊢
  rw [startPieces, List.filterMap_append, List.filterMap_cons_none rfl, own, owner,
    List.append_nil]

theorem createdIn_append (first second : List Piece) :
    createdIn (first ++ second) = createdIn first ++ createdIn second :=
  List.filterMap_append

theorem copiedIn_append (first second : List Piece) :
    copiedIn (first ++ second) = copiedIn first ++ copiedIn second :=
  List.filterMap_append

/-- A partitioned table: its own statements, and then its partitions. -/
theorem dumpsRoot_partitioned (f : Forest) {r : Rel} (named : Named r)
    (parted : (f.cat.relation r.1 r.2).isPartitioned = true) {dump : TableDump}
    (below : DumpsBelow f.cat 8 r dump) (late : List Piece) :
    DumpsRoot f.cat r
      (TableDump.append { pieces := startPieces f.cat r, constraints := late } dump) := by
  constructor
  · change copiedIn (startPieces f.cat r ++ dump.pieces) = _
    rw [copiedIn_append, copiedIn_startPieces, below.copies, copiedRels, if_pos parted,
      List.nil_append, List.nil_append]
  · exact below.attaches
  · change createdIn (startPieces f.cat r ++ dump.pieces) = _
    rw [createdIn_append, createdIn_startPieces f named, below.creates]

theorem dumpsRoot_plain (f : Forest) {r : Rel} (named : Named r)
    (plain : ¬ (f.cat.relation r.1 r.2).isPartitioned = true) (late : List Piece) :
    DumpsRoot f.cat r { pieces := startPieces f.cat r ++ copyData f.cat r.1 r.2,
                        constraints := late } := by
  have noParts : f.cat.partitions r.1 r.2 = [] := by
    by_contra someParts
    exact plain (f.readable.parents r.1 r.2 someParts)
  constructor
  · change copiedIn (startPieces f.cat r ++ copyData f.cat r.1 r.2) = _
    rw [copiedIn_append, copiedIn_startPieces, copiedIn_copyData f.cat named, copiedRels,
      if_neg plain, descendants_of_none noParts]
    rfl
  · rw [edges_of_none noParts]
    rfl
  · change createdIn (startPieces f.cat r ++ copyData f.cat r.1 r.2) = _
    rw [createdIn_append, createdIn_startPieces f named, createdBelow_of_none noParts]
    rfl

theorem dumpTable_root (f : Forest) {r : Rel} (isRoot : r ∈ f.roots) (noDot : '.' ∉ r.1.toList) :
    ∃ dump, dumpTable f.cat {} (keyOf r) = some dump ∧ DumpsRoot f.cat r dump := by
  have named := f.rootNamed r isRoot
  rw [dumpTable_eq, relOf_keyOf noDot]
  by_cases parted : (f.cat.relation r.1 r.2).isPartitioned = true
  · obtain ⟨dump, isDump, below⟩ := f.dumpPartitions_below 8 r named (f.shallow r isRoot)
    rw [if_pos parted, isDump]
    exact ⟨_, rfl, dumpsRoot_partitioned f named parted below _⟩
  · rw [if_neg parted]
    exact ⟨_, rfl, dumpsRoot_plain f named parted _⟩

/-! ### All listed tables -/

/-- The tables in the order in which they are dumped. -/
theorem includedTables_forest (f : Forest) : ∃ sorted : List Rel, sorted.Perm f.roots ∧
      includedTables f.cat {} = sorted.map keyOf := by
  have all : f.cat.tables.filter (tableIncluded {}) = f.roots.map keyOf := by
    rw [f.listed]
    exact List.filter_eq_self.mpr fun _ _ => rfl
  refine ⟨f.roots.mergeSort fun a b =>
    f.cat.inheritanceDepth (keyOf a) ≤ f.cat.inheritanceDepth (keyOf b),
    List.mergeSort_perm .., ?_⟩
  rw [includedTables, all]
  symm
  apply List.map_mergeSort
  intro a _ b _
  rfl

theorem dumpTables_forest (f : Forest) (noDots : NoDots f) :
    ∃ sorted dumps, sorted.Perm f.roots ∧ dumpTables f.cat = some (TableDump.concat dumps) ∧
      List.Forall₂ (DumpsRoot f.cat) sorted dumps := by
  obtain ⟨sorted, isPerm, isIncluded⟩ := includedTables_forest f
  obtain ⟨dumps, isDumps, all⟩ := mapM_forall₂ fun r member =>
    dumpTable_root f (isPerm.mem_iff.mp member) (noDots r (isPerm.mem_iff.mp member))
  refine ⟨sorted, dumps, isPerm, ?_, all⟩
  have keys : (sorted.map keyOf).mapM (dumpTable f.cat {}) = some dumps := by
    rw [List.mapM_map]
    exact isDumps
  rw [dumpTables, isIncluded, keys]
  rfl

/-- The pieces that are read with a key are those of the item with this key. -/
theorem filter_key {α β γ : Type} [DecidableEq γ] {key : α → γ} {write : α → β} {keyRead : β → γ}
    (reads : ∀ a, keyRead (write a) = key a) {items : List α} (distinct : (items.map key).Nodup)
    {item : α} (member : item ∈ items) :
    (items.map write).filter (fun b => keyRead b = key item) = [write item] := by
  induction items with
  | nil => exact absurd member List.not_mem_nil
  | cons first rest ih =>
    rw [List.map_cons, List.nodup_cons] at distinct
    rw [List.map_cons]
    rcases List.mem_cons.mp member with rfl | later
    · rw [List.filter_cons_of_pos (by rw [reads]; exact decide_eq_true rfl)]
      refine congrArg (write item :: ·) (List.filter_eq_nil_iff.mpr ?_)
      intro b isWritten
      obtain ⟨other, inRest, rfl⟩ := List.mem_map.mp isWritten
      rw [reads, decide_eq_true_eq]
      intro same
      exact distinct.1 (same ▸ List.mem_map_of_mem inRest)
    · have differs : key first ≠ key item := by
        intro same
        exact distinct.1 (same ▸ List.mem_map_of_mem later)
      rw [List.filter_cons_of_neg (by rw [reads, decide_eq_true_eq]; exact differs)]
      exact ih distinct.2 later

theorem nameOf_injective : Function.Injective nameOf := by
  intro a b same
  exact Prod.ext (String.toList_injective (congrArg Prod.fst same))
    (String.toList_injective (congrArg Prod.snd same))

variable {sorted : List Rel}

theorem relations_nodup (f : Forest) (isPerm : sorted.Perm f.roots) :
    (relations f.cat sorted).Nodup :=
  (isPerm.flatMap_right _).nodup_iff.mpr f.once

theorem mem_relations (f : Forest) (isPerm : sorted.Perm f.roots) {r : Rel} :
    r ∈ relations f.cat sorted ↔ r ∈ relations f.cat f.roots :=
  (isPerm.flatMap_right _).mem_iff

theorem copiedRels_sublist (cat : Catalogue) (r : Rel) :
    (copiedRels cat r).Sublist (r :: descendants cat 8 r) := by
  rw [copiedRels]
  split
  · exact List.sublist_cons_self ..
  · exact List.Sublist.refl _

theorem mem_copiedRels {root r : Rel} (leaf : (cat.relation r.1 r.2).isPartitioned = false)
    (member : r ∈ root :: descendants cat 8 root) : r ∈ copiedRels cat root := by
  rw [copiedRels]
  rcases List.mem_cons.mp member with rfl | deeper
  · rw [leaf]
    exact List.mem_cons_self
  · exact List.mem_append_right _ deeper

variable {dumps : List TableDump}

theorem rowsOnce_of_dumps (f : Forest) (isPerm : sorted.Perm f.roots)
    (all : List.Forall₂ (DumpsRoot f.cat) sorted dumps) :
    RowsOnce f (TableDump.concat dumps) := by
  intro r member leaf
  have copies : copiedIn (TableDump.concat dumps).pieces =
      (sorted.flatMap (copiedRels f.cat)).map fun d => (nameOf d, rowsOf f.cat d) := by
    have each := flatMap_forall₂ (all.imp fun _ _ root => root.copies)
    rw [concat_pieces, copiedIn, List.filterMap_flatMap, List.map_flatMap]
    exact each
  have distinct : ((sorted.flatMap (copiedRels f.cat)).map nameOf).Nodup := by
    have fewer : (sorted.flatMap (copiedRels f.cat)).Sublist (relations f.cat sorted) :=
      List.Sublist.flatMap_right sorted fun root _ => copiedRels_sublist f.cat root
    exact (fewer.nodup (relations_nodup f isPerm)).map nameOf_injective
  obtain ⟨root, isRoot, inRoot⟩ := List.mem_flatMap.mp ((mem_relations f isPerm).mpr member)
  rw [copies]
  exact @filter_key _ _ _ _ nameOf (fun d => (nameOf d, rowsOf f.cat d)) Prod.fst (fun _ => rfl) _
    distinct r (List.mem_flatMap.mpr ⟨root, isRoot, mem_copiedRels leaf inRoot⟩)

/-- Each relation below a table is the second end of one edge. -/
theorem edges_parts (cat : Catalogue) (levels : Nat) :
    ∀ r, ((edges cat levels r).map Prod.snd).Perm (descendants cat levels r) := by
  induction levels with
  | zero => exact fun _ => .refl _
  | succ levels ih =>
    intro r
    rw [edges, descendants, List.map_flatMap]
    refine List.Perm.flatMap_left _ fun p _ => ?_
    rw [List.map_append, List.map_singleton]
    exact (List.perm_append_comm).trans ((ih (PartRef.rel p)).cons _)

/-- The edge from a relation to its partition, wherever the relation stands. -/
theorem mem_edges {r : Rel} {p : PartRef} (isPart : p ∈ cat.partitions r.1 r.2) (levels : Nat) :
    ∀ root, Shallow cat levels root → r ∈ root :: descendants cat levels root →
      (r, PartRef.rel p) ∈ edges cat levels root := by
  induction levels with
  | zero =>
    intro root noParts member
    rw [List.mem_singleton.mp member] at isPart
    rw [Shallow] at noParts
    rw [noParts] at isPart
    exact absurd isPart List.not_mem_nil
  | succ levels ih =>
    intro root shallow member
    rw [edges]
    rcases List.mem_cons.mp member with rfl | deeper
    · exact List.mem_flatMap.mpr
        ⟨p, isPart, List.mem_append_right _ (List.mem_singleton_self _)⟩
    · obtain ⟨q, inRoot, below⟩ := List.mem_flatMap.mp deeper
      exact List.mem_flatMap.mpr ⟨q, inRoot, List.mem_append_left _
        (ih (PartRef.rel q) (shallow q inRoot) below)⟩

/-- Below a table, each relation is created twice: with its parent and by itself. -/
theorem created_twice (cat : Catalogue) (levels : Nat) : ∀ r, Shallow cat levels r →
      (partNames cat r ++ createdBelow cat levels r).Perm
        ((descendants cat levels r ++ descendants cat levels r).map nameOf) := by
  induction levels with
  | zero =>
    intro r noParts
    rw [Shallow] at noParts
    rw [partNames, noParts]
    exact .refl _
  | succ levels ih =>
    intro r shallow
    have each : ∀ p ∈ cat.partitions r.1 r.2, Shallow cat levels (PartRef.rel p) := shallow
    rw [createdBelow, descendants, partNames]
    clear shallow
    generalize cat.partitions r.1 r.2 = parts at each ⊢
    induction parts with
    | nil => exact .refl _
    | cons p rest restHypothesis =>
      have deeper := ih (PartRef.rel p) (each p List.mem_cons_self)
      have others := restHypothesis (List.forall_mem_cons.mp each).2
      rw [List.perm_iff_count] at deeper others ⊢
      intro name
      have deeperCount := deeper name
      have othersCount := others name
      simp only [List.map_cons, List.map_append, List.flatMap_cons, List.cons_append,
        List.count_append, List.count_cons] at deeperCount othersCount ⊢
      omega

/-- The `CREATE TABLE` statements: one for each relation, and one more for each partition. -/
theorem createdIn_of_dumps (f : Forest) (isPerm : sorted.Perm f.roots)
    (all : List.Forall₂ (DumpsRoot f.cat) sorted dumps) :
    (createdIn (TableDump.concat dumps).pieces).Perm
      ((relations f.cat sorted ++ sorted.flatMap (descendants f.cat 8)).map nameOf) := by
  have each := flatMap_forall₂ (all.imp fun _ _ root => root.creates)
  have exact_ : createdIn (TableDump.concat dumps).pieces =
      sorted.flatMap fun r => nameOf r :: partNames f.cat r ++ createdBelow f.cat 8 r := by
    rw [concat_pieces, createdIn, List.filterMap_flatMap]
    exact each
  have joined : (relations f.cat sorted ++ sorted.flatMap (descendants f.cat 8)).Perm
      (sorted.flatMap fun r => (r :: descendants f.cat 8 r) ++ descendants f.cat 8 r) :=
    List.flatMap_append_perm ..
  refine .trans ?_ (joined.map nameOf).symm
  rw [exact_, List.map_flatMap]
  refine List.Perm.flatMap_left _ fun r member => ?_
  exact (created_twice f.cat 8 r (f.shallow r (isPerm.mem_iff.mp member))).cons _

theorem mem_createdIn_of_dumps (f : Forest) (isPerm : sorted.Perm f.roots)
    (all : List.Forall₂ (DumpsRoot f.cat) sorted dumps) {r : Rel}
    (member : r ∈ relations f.cat f.roots) :
    nameOf r ∈ createdIn (TableDump.concat dumps).pieces := by
  rw [(createdIn_of_dumps f isPerm all).mem_iff]
  exact List.mem_map_of_mem (List.mem_append_left _ ((mem_relations f isPerm).mpr member))

/-- Where every piece is read, the readings are a list of their own. -/
theorem filterMap_of_map {α β γ : Type} {read : α → Option β} {write : γ → β} {pieces : List α}
    {items : List γ} (all : pieces.map read = items.map fun item => some (write item)) :
    pieces.filterMap read = items.map write := by
  have through : pieces.filterMap read = (pieces.map read).filterMap id := by
    rw [List.filterMap_map]
    rfl
  rw [through, all, List.filterMap_map]
  exact congrFun (List.filterMap_eq_map ..) items

theorem attachedIn_of_dumps (all : List.Forall₂ (DumpsRoot cat) sorted dumps) :
    attachedIn (TableDump.concat dumps).attach =
      (sorted.flatMap (edges cat 8)).map fun e => (nameOf e.1, nameOf e.2) := by
  refine filterMap_of_map ?_
  have each := @flatMap_forall₂ _ _ _ _ _ (fun dump => dump.attach.map attached) _
    (all.imp fun _ _ root => root.attaches)
  rw [concat_attach, List.map_flatMap, List.map_flatMap]
  exact each

theorem edges_distinct (f : Forest) (isPerm : sorted.Perm f.roots) :
    ((sorted.flatMap (edges f.cat 8)).map fun e => nameOf e.2).Nodup := by
  have parts : ((sorted.flatMap (edges f.cat 8)).map Prod.snd).Perm
      (sorted.flatMap (descendants f.cat 8)) := by
    rw [List.map_flatMap]
    exact List.Perm.flatMap_left _ fun r _ => edges_parts f.cat 8 r
  have fewer : (sorted.flatMap (descendants f.cat 8)).Sublist (relations f.cat sorted) :=
    List.Sublist.flatMap_right sorted fun r _ => List.sublist_cons_self ..
  have distinct := parts.nodup_iff.mpr (fewer.nodup (relations_nodup f isPerm))
  have named := distinct.map nameOf_injective
  rw [List.map_map] at named
  exact named

theorem attachedOnce_of_dumps (f : Forest) (isPerm : sorted.Perm f.roots)
    (all : List.Forall₂ (DumpsRoot f.cat) sorted dumps) :
    AttachedOnce f (TableDump.concat dumps) := by
  intro r member p isPart
  obtain ⟨root, isRoot, inRoot⟩ := List.mem_flatMap.mp ((mem_relations f isPerm).mpr member)
  have edge := mem_edges isPart 8 root (f.shallow root (isPerm.mem_iff.mp isRoot)) inRoot
  have inEdges : (r, PartRef.rel p) ∈ sorted.flatMap (edges f.cat 8) :=
    List.mem_flatMap.mpr ⟨root, isRoot, edge⟩
  have isRelation : PartRef.rel p ∈ relations f.cat f.roots := by
    rw [← mem_relations f isPerm]
    refine List.mem_flatMap.mpr ⟨root, isRoot, List.mem_cons_of_mem _ ?_⟩
    rw [← (edges_parts f.cat 8 root).mem_iff]
    exact List.mem_map.mpr ⟨_, edge, rfl⟩
  refine ⟨?_, mem_createdIn_of_dumps f isPerm all member,
    mem_createdIn_of_dumps f isPerm all isRelation⟩
  have distinct := edges_distinct f isPerm
  rw [attachedIn_of_dumps all]
  generalize sorted.flatMap (edges f.cat 8) = pairs at distinct inEdges ⊢
  exact @filter_key _ _ _ _ (fun e : Rel × Rel => nameOf e.2)
    (fun e => (nameOf e.1, nameOf e.2)) Prod.snd (fun _ => rfl) _ distinct (r, PartRef.rel p)
    inEdges

/-- Rows and attachments, for every forest without a dotted schema among its listed tables. -/
theorem dumpTables_spec (f : Forest) (noDots : NoDots f) :
    ∃ tables, dumpTables f.cat = some tables ∧ RowsOnce f tables ∧ AttachedOnce f tables ∧
      InOrder f.cat tables := by
  obtain ⟨sorted, dumps, isPerm, isDump, all⟩ := dumpTables_forest f noDots
  exact ⟨_, isDump, rowsOnce_of_dumps f isPerm all, attachedOnce_of_dumps f isPerm all,
    inOrder_of_dumpTables isDump⟩

/-! ### Tables with a dot in their schema -/

theorem splitTable_noDot (table : String) : '.' ∉ (splitTable table).1.toList := by
  have before : '.' ∉ table.toList.takeWhile (· ≠ '.') := by
    intro member
    exact absurd (List.mem_takeWhile_imp member) (by decide)
  rw [splitTable]
  split
  · next noRest =>
      have whole : table.toList.takeWhile (· ≠ '.') = table.toList := by
        refine (List.takeWhile_prefix _).eq_of_length_le ?_
        exact List.drop_eq_nil_iff.mp noRest
      rw [← whole]
      exact before
  · rw [String.toList_ofList]
    exact before

/-- The name is one that `getPartitions` or `dumpPartitions` can create. -/
def IsPartName (cat : Catalogue) (name : RelName) : Prop :=
  ∃ s t, ∃ p ∈ cat.partitions s t, name = nameOf (PartRef.rel p)

variable {name : RelName}

theorem isPartName_of_partNames {r : Rel}
    (member : name ∈ partNames cat r) : IsPartName cat name := by
  obtain ⟨p, isPart, rfl⟩ := List.mem_map.mp member
  exact ⟨r.1, r.2, p, isPart, rfl⟩

theorem createdIn_dumpPartitions (f : Forest) (fuel : Nat) :
    ∀ s t dump, dumpPartitions f.cat false fuel s t = some dump →
      ∀ name ∈ createdIn dump.pieces, IsPartName f.cat name := by
  induction fuel with
  | zero => exact fun _ _ _ isDump => nomatch isDump
  | succ fuel ih =>
    intro s t dump isDump name member
    rw [dumpPartitions] at isDump
    obtain ⟨dumps, isDumps, rfl⟩ := Option.map_eq_some_iff.mp isDump
    have each := @mapM_some_forall _ _ _ (fun dump =>
      ∀ name ∈ createdIn dump.pieces, IsPartName f.cat name) _ _ isDumps (by
        intro p isPart dump isDump name member
        have named := f.readable.partNamed s t p isPart
        obtain ⟨nested, nestedNames, rfl⟩ : ∃ nested : TableDump,
            (∀ name ∈ createdIn nested.pieces, IsPartName f.cat name) ∧
              dump = partitionDump f.cat false s t p nested := by
          split at isDump
          · obtain ⟨nested, isNested, shape⟩ := Option.map_eq_some_iff.mp isDump
            exact ⟨nested, ih _ _ nested isNested, shape.symm⟩
          · exact ⟨{}, fun _ member => absurd member List.not_mem_nil,
              (Option.some.inj isDump).symm⟩
        rw [f.readable.createdIn_partitionDump false (s, t) named] at member
        rcases List.mem_append.mp member with own | deeper
        · rcases List.mem_cons.mp own with rfl | inParts
          · exact ⟨s, t, p, isPart, rfl⟩
          · exact isPartName_of_partNames inParts
        · exact nestedNames name deeper)
    rw [concat_pieces, createdIn, List.filterMap_flatMap] at member
    obtain ⟨part, isPart, inPart⟩ := List.mem_flatMap.mp member
    exact each part isPart name inPart

theorem createdIn_getCreateTable_cases (f : Forest) (r : Rel)
    (member : name ∈ createdIn (getCreateTable f.cat r.1 r.2)) :
    name.1 = r.1.toList ∨ IsPartName f.cat name := by
  rw [f.readable.createdIn_getCreateTable r] at member
  rcases List.mem_append.mp member with own | inParts
  · exact .inl ((creates_createTable r _).schema (Option.mem_toList.mp own))
  · exact .inr (isPartName_of_partNames inParts)

theorem createdIn_startPieces_cases (f : Forest) (r : Rel)
    (member : name ∈ createdIn (startPieces f.cat r)) :
    name.1 = r.1.toList ∨ IsPartName f.cat name := by
  have owner := createdIn_tableOwner f.cat r.1 r.2
  have comment : created (.comment ("Table: " ++ r.1 ++ "." ++ r.2)) = none := rfl
  rw [startPieces, createdIn_append, owner, List.append_nil, createdIn,
    List.filterMap_cons_none comment] at member
  exact createdIn_getCreateTable_cases f r member

/-- Nothing is created in a schema with a dot, partitions apart. -/
theorem createdIn_dumpTable (f : Forest) {table : String} {dump : TableDump}
    (isDump : dumpTable f.cat {} table = some dump)
    (member : name ∈ createdIn dump.pieces) : '.' ∉ name.1 ∨ IsPartName f.cat name := by
  have noDot : '.' ∉ (relOf table).1.toList := splitTable_noDot table
  have start : ∀ other ∈ createdIn (startPieces f.cat (relOf table)),
      '.' ∉ other.1 ∨ IsPartName f.cat other := by
    intro other inStart
    rcases createdIn_startPieces_cases f (relOf table) inStart with same | isPart
    · rw [same]
      exact .inl noDot
    · exact .inr isPart
  rw [dumpTable_eq] at isDump
  split at isDump
  · obtain ⟨below, isBelow, rfl⟩ := Option.map_eq_some_iff.mp isDump
    rcases List.mem_append.mp (createdIn_append _ below.pieces ▸ member) with inStart | deeper
    · exact start name inStart
    · exact .inr (createdIn_dumpPartitions f 9 _ _ below isBelow name deeper)
  · obtain rfl := Option.some.inj isDump
    rcases List.mem_append.mp (createdIn_append _ (copyData ..) ▸ member) with inStart | inRows
    · exact start name inStart
    · exact absurd inRows List.not_mem_nil

theorem createdIn_dumpTables (f : Forest) (isTables : dumpTables f.cat = some tables)
    (member : name ∈ createdIn tables.pieces) : '.' ∉ name.1 ∨ IsPartName f.cat name := by
  obtain ⟨dumps, isDumps, rfl⟩ := Option.map_eq_some_iff.mp isTables
  have each := @mapM_some_forall _ _ _ (fun dump =>
    ∀ name ∈ createdIn dump.pieces, '.' ∉ name.1 ∨ IsPartName f.cat name) _ _ isDumps
    fun _ _ _ isDump _ inDump => createdIn_dumpTable f isDump inDump
  rw [concat_pieces, createdIn, List.filterMap_flatMap] at member
  obtain ⟨dump, isDump, inDump⟩ := List.mem_flatMap.mp member
  exact each dump isDump name inDump

/-! ### Main results -/

theorem mem_relations_of_root {roots : List Rel} {r : Rel}
    (isRoot : r ∈ roots) : r ∈ relations cat roots :=
  List.mem_flatMap.mpr ⟨r, isRoot, List.mem_cons_self⟩

theorem noDots_of_createdOnce (f : Forest)
    (isTables : dumpTables f.cat = some tables) (createdOnce : CreatedOnce f tables) :
    NoDots f := by
  intro r isRoot dotted
  have one := createdOnce r (mem_relations_of_root isRoot)
  have member : nameOf r ∈ createdIn tables.pieces :=
    List.count_pos_iff.mp (by rw [one]; exact Nat.one_pos)
  rcases createdIn_dumpTables f isTables member with noDot | ⟨s, t, p, isPart, same⟩
  · exact noDot dotted
  · exact f.notPartition s t p isPart (nameOf_injective same ▸ isRoot)

/-- How often a relation is created: once, and once more where it is a partition. -/
theorem count_created (f : Forest) (isPerm : sorted.Perm f.roots)
    (all : List.Forall₂ (DumpsRoot f.cat) sorted dumps) {r : Rel}
    (member : r ∈ relations f.cat f.roots) :
    (createdIn (TableDump.concat dumps).pieces).count (nameOf r) =
      1 + (sorted.flatMap (descendants f.cat 8)).count r := by
  have one : (relations f.cat sorted).count r = 1 :=
    List.count_eq_one_of_mem (relations_nodup f isPerm) ((mem_relations f isPerm).mpr member)
  rw [(createdIn_of_dumps f isPerm all).count_eq,
    List.count_map_of_injective _ _ nameOf_injective, List.count_append, one]

theorem createdOnce_iff (f : Forest) (isPerm : sorted.Perm f.roots)
    (all : List.Forall₂ (DumpsRoot f.cat) sorted dumps) :
    CreatedOnce f (TableDump.concat dumps) ↔ NoPartitions f := by
  constructor
  · intro createdOnce r isRoot
    by_contra someParts
    obtain ⟨p, others, shape⟩ := List.exists_cons_of_ne_nil someParts
    have isPart : PartRef.rel p ∈ descendants f.cat 8 r := by
      rw [descendants, shape]
      exact List.mem_cons_self
    have isRelation : PartRef.rel p ∈ relations f.cat f.roots :=
      List.mem_flatMap.mpr ⟨r, isRoot, List.mem_cons_of_mem _ isPart⟩
    have again : 0 < (sorted.flatMap (descendants f.cat 8)).count (PartRef.rel p) :=
      List.count_pos_iff.mpr (List.mem_flatMap.mpr ⟨r, isPerm.mem_iff.mpr isRoot, isPart⟩)
    have one := createdOnce (PartRef.rel p) isRelation
    rw [count_created f isPerm all isRelation] at one
    omega
  · intro noPartitions r member
    have noneBelow : sorted.flatMap (descendants f.cat 8) = [] :=
      List.flatMap_eq_nil_iff.mpr fun root isRoot =>
        descendants_of_none (noPartitions root (isPerm.mem_iff.mp isRoot)) 8
    rw [count_created f isPerm all member, noneBelow]
    rfl

/-- The dump is as it should be exactly when there are no partitions, and no dot in the schema of
a listed table. -/
theorem dumpedOnce_iff (f : Forest) : DumpedOnce f ↔ NoDots f ∧ NoPartitions f := by
  constructor
  · rintro ⟨tables, isTables, createdOnce, -, -, -⟩
    have noDots := noDots_of_createdOnce f isTables createdOnce
    obtain ⟨sorted, dumps, isPerm, isDump, all⟩ := dumpTables_forest f noDots
    obtain rfl := Option.some.inj (isTables.symm.trans isDump)
    exact ⟨noDots, (createdOnce_iff f isPerm all).mp createdOnce⟩
  · rintro ⟨noDots, noPartitions⟩
    obtain ⟨sorted, dumps, isPerm, isDump, all⟩ := dumpTables_forest f noDots
    exact ⟨_, isDump, (createdOnce_iff f isPerm all).mpr noPartitions,
      rowsOnce_of_dumps f isPerm all, attachedOnce_of_dumps f isPerm all,
      inOrder_of_dumpTables isDump⟩

def eventsPart : PartRef := ⟨"public", "events_2026", "FOR VALUES IN (2026)"⟩

/-- A partitioned table with one partition. -/
def eventsCatalogue : Catalogue where
  dbName := "shop"
  tables := ["public.events"]
  relation := fun s t => { isPartitioned := s = "public" ∧ t = "events" }
  partitions := fun s t => if s = "public" ∧ t = "events" then [eventsPart] else []

theorem events_partition {s t : String} {p : PartRef}
    (isPart : p ∈ eventsCatalogue.partitions s t) : s = "public" ∧ t = "events" ∧ p = eventsPart := by
  by_cases isEvents : s = "public" ∧ t = "events"
  · refine ⟨isEvents.1, isEvents.2, ?_⟩
    have list : eventsCatalogue.partitions s t = [eventsPart] := if_pos isEvents
    rw [list] at isPart
    exact List.mem_singleton.mp isPart
  · have list : eventsCatalogue.partitions s t = [] := if_neg isEvents
    rw [list] at isPart
    exact absurd isPart List.not_mem_nil

theorem events_once : (relations eventsCatalogue [("public", "events")]).Nodup := by
  decide +kernel

theorem events_readable : Readable eventsCatalogue where
  partNamed := by
    intro s t p isPart
    rw [(events_partition isPart).2.2]
    exact ⟨by decide, by decide⟩
  parents := by
    intro s t someParts
    obtain ⟨p, isPart⟩ := List.exists_mem_of_ne_nil _ someParts
    obtain ⟨isSchema, isName, -⟩ := events_partition isPart
    exact decide_eq_true ⟨isSchema, isName⟩
  indexes := fun _ _ _ isIndex => absurd isIndex List.not_mem_nil

def events : Forest where
  cat := eventsCatalogue
  roots := [("public", "events")]
  listed := by decide
  notPartition := by
    intro s t p isPart
    rw [(events_partition isPart).2.2]
    decide
  once := events_once
  shallow := by
    intro r isRoot p isPart
    rw [(events_partition isPart).2.2]
    exact fun q isNested => absurd (events_partition isNested).2.1 (by decide)
  rootNamed := by
    intro r isRoot
    rw [List.mem_singleton.mp isRoot]
    exact ⟨by decide, by decide⟩
  readable := events_readable

/-- The partition is created twice: as a partition of its table, and again by itself. -/
theorem events_partition_created_twice :
    ¬ DumpedOnce events ∧ ∃ tables, dumpTables events.cat = some tables ∧
      (createdIn tables.pieces).count (nameOf (PartRef.rel eventsPart)) = 2 := by
  have noDots : NoDots events := by
    intro r isRoot
    rw [List.mem_singleton.mp isRoot]
    decide
  obtain ⟨sorted, dumps, isPerm, isDump, all⟩ := dumpTables_forest events noDots
  have isRelation : PartRef.rel eventsPart ∈ relations events.cat events.roots := by
    decide +kernel
  have sortedOne : sorted = [("public", "events")] := List.perm_singleton.mp isPerm
  have twice := count_created events isPerm all isRelation
  rw [sortedOne] at twice
  refine ⟨?_, _, isDump, twice⟩
  rintro ⟨tables, isTables, createdOnce, -, -, -⟩
  obtain rfl := Option.some.inj (isTables.symm.trans isDump)
  have one := createdOnce _ isRelation
  rw [twice] at one
  exact absurd one (by decide)

end DbBackup.Engine.Postgres.TableForest
