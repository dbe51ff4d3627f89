import DbBackup.Engine.Mssql.Dump
import Mathlib.Algebra.Order.BigOperators.Group.List
import Mathlib.Algebra.Order.Group.Nat

/-!
Owns the order of the `SET IDENTITY_INSERT` and `INSERT` statements in what
`dumpDatabase` of `internal/database/engine/mssql/mssql.go` writes.

Contract: every `INSERT` has one to 500 rows and the rows of a table come once and
in order. The switch of an identity table is set back exactly when the number of
its rows is not a multiple of 500: the loop sets it back with the last short
`INSERT`, and there is none when the last one is full.
-/

set_option linter.all false

namespace DbBackup.Engine.Mssql

open Lib.Chunks

/-! ### Statements -/

inductive Statement where
  | identity (table : String) (on : Bool)
  | insert (table : String) (rows : List (List Part))

/-- The rows up to the end of the `INSERT`. -/
def rowsBefore : List Write → List (List Part)
  | .row parts :: rest => parts :: rowsBefore rest
  | .comma :: rest => rowsBefore rest
  | _ => []

def statements : List Write → List Statement
  | [] => []
  | .setIdentity _ table on :: rest => .identity table on :: statements rest
  | .insertInto _ table _ :: rest => .insert table (rowsBefore rest) :: statements rest
  | .defaultValues _ table :: rest => .insert table [[]] :: statements rest
  | _ :: rest => statements rest

/-- No `INSERT` is left open at the end. -/
def Sealed (writes : List Write) : Prop :=
  ∀ rest, statements (writes ++ rest) = statements writes ++ statements rest

theorem Sealed.append {first second : List Write} (firstSealed : Sealed first)
    (secondSealed : Sealed second) : Sealed (first ++ second) := by
  intro rest
  rw [List.append_assoc, firstSealed, secondSealed, firstSealed, List.append_assoc]

theorem Sealed.flatMap {α : Type} {items : List α} {write : α → List Write}
    (each : ∀ item ∈ items, Sealed (write item)) :
    Sealed (items.flatMap write) ∧
      statements (items.flatMap write) = items.flatMap fun item => statements (write item) := by
  induction items with
  | nil => exact ⟨fun rest => rfl, rfl⟩
  | cons item rest ih =>
    have itemSealed := each item List.mem_cons_self
    obtain ⟨restSealed, restStatements⟩ :=
      ih (List.forall_mem_cons.mp each).2
    rw [List.flatMap_cons, List.flatMap_cons, itemSealed, restStatements]
    exact ⟨itemSealed.append restSealed, rfl⟩

/-- A write that is neither a switch nor part of an `INSERT`. -/
def Quiet : Write → Prop
  | .text _ => True
  | .definition _ => True
  | .go => True
  | _ => False

/-- Writes without statements. -/
structure Silent (writes : List Write) : Prop where
  isSealed : Sealed writes
  none : statements writes = []

theorem Silent.append {first second : List Write} (firstSilent : Silent first)
    (secondSilent : Silent second) : Silent (first ++ second) :=
  ⟨firstSilent.isSealed.append secondSilent.isSealed,
    by rw [firstSilent.isSealed, firstSilent.none, secondSilent.none, List.append_nil]⟩

theorem Silent.flatMap {α : Type} (items : List α) {write : α → List Write}
    (each : ∀ item, Silent (write item)) : Silent (items.flatMap write) := by
  obtain ⟨isSealed, all⟩ := Sealed.flatMap fun item (_ : item ∈ items) => (each item).isSealed
  refine ⟨isSealed, ?_⟩
  rw [all, List.flatMap_eq_nil_iff]
  exact fun item _ => (each item).none

theorem statements_quiet {writes : List Write} (quiet : ∀ write ∈ writes, Quiet write) :
    Silent writes := by
  induction writes with
  | nil => exact ⟨fun rest => rfl, rfl⟩
  | cons write rest ih =>
    obtain ⟨restSealed, restNone⟩ :=
      ih (List.forall_mem_cons.mp quiet).2
    have isQuiet := quiet write List.mem_cons_self
    cases write with
    | text content => exact ⟨restSealed, restNone⟩
    | definition definition => exact ⟨restSealed, restNone⟩
    | go => exact ⟨restSealed, restNone⟩
    | _ => exact absurd isQuiet id

/-! ### One table -/

theorem rowsBefore_rowWrites (table : Table) (chunk : List (List Value)) (rest : List Write) :
    rowsBefore (rowWrites table chunk ++ .close :: rest) = chunk.map (rowParts table) := by
  cases chunk with
  | nil => rfl
  | cons vals others =>
    rw [rowWrites, List.cons_append, rowsBefore, List.map_cons]
    congr 1
    induction others with
    | nil => rfl
    | cons next others ih =>
      rw [List.flatMap_cons, List.append_assoc, List.map_cons]
      exact congrArg (rowParts table next :: ·) ih

theorem statements_rowWrites (table : Table) (chunk : List (List Value)) (rest : List Write) :
    statements (rowWrites table chunk ++ rest) = statements rest := by
  cases chunk with
  | nil => rfl
  | cons vals others =>
    rw [rowWrites, List.cons_append]
    show statements (others.flatMap _ ++ rest) = statements rest
    induction others with
    | nil => rfl
    | cons next others ih =>
      rw [List.flatMap_cons, List.append_assoc]
      exact ih

/-- The switch as statements. -/
def switched (table : Table) (on : Bool) : List Statement :=
  if identityInsert table then [.identity table.name on] else []

variable (db : String)

theorem statements_switch (table : Table) (on : Bool) :
    Sealed (switch db table on) ∧ statements (switch db table on) = switched table on := by
  unfold switch switched
  split <;> exact ⟨fun rest => rfl, rfl⟩

theorem statements_block (table : Table) (chunk : List (List Value)) :
    Sealed (block db table chunk) ∧
      statements (block db table chunk) =
        .insert table.name (chunk.map (rowParts table)) ::
          (if chunk.length < batchSize then switched table false else []) := by
  have opened : ∀ rest, statements (insertWrites db table chunk ++ rest) =
      .insert table.name (chunk.map (rowParts table)) :: statements rest := by
    intro rest
    have shape : insertWrites db table chunk ++ rest =
        insertHead db table :: (rowWrites table chunk ++ .close :: .go :: rest) := by
      simp [insertWrites]
    rw [shape, insertHead, statements, rowsBefore_rowWrites, statements_rowWrites]
    rfl
  have closing : ∀ rest,
      statements ((if chunk.length < batchSize then switch db table false else []) ++
          (.text "\n" :: rest)) =
        (if chunk.length < batchSize then switched table false else []) ++ statements rest := by
    intro rest
    split
    · rw [(statements_switch db table false).1, (statements_switch db table false).2]
      rfl
    · rfl
  have all : ∀ rest, statements (block db table chunk ++ rest) =
      (.insert table.name (chunk.map (rowParts table)) ::
        (if chunk.length < batchSize then switched table false else [])) ++ statements rest := by
    intro rest
    unfold block
    rw [List.append_assoc, List.append_assoc, opened, List.singleton_append, closing]
    rfl
  have alone := all []
  rw [List.append_nil, show statements [] = [] from rfl, List.append_nil] at alone
  exact ⟨fun rest => by rw [all, alone], alone⟩

/-- The rows of a table that reach the dump. -/
def dumpedRows (d : Dumper) (table : Table) : List (List Value) :=
  if schemaOnly d table.name then [] else table.rows

/-- The switch around rows, where there are any. -/
def bracket (d : Dumper) (table : Table) (on : Bool) : List Statement :=
  if (dumpedRows d table).isEmpty then [] else switched table on

theorem quiet_tableHead (table : Table) :
    ∀ write ∈ [Write.text ("DROP TABLE IF EXISTS " ++ tableName db table.name ++ ";\n"), .go,
      .text ("-- Table: " ++ table.name ++ "\n" ++ createTable db table), .go, .text "\n"],
      Quiet write := by
  intro write member
  simp only [List.mem_cons, List.not_mem_nil, or_false] at member
  rcases member with rfl | rfl | rfl | rfl | rfl <;> trivial

variable {table : Table}

theorem rowParts_of_noInsertCols (none : (insertCols table).isEmpty = true)
    (vals : List Value) : rowParts table vals = [] := by
  unfold rowParts
  rw [List.filterMap_eq_nil_iff]
  intro entry member
  have noCols := List.isEmpty_iff.mp none
  unfold insertCols at noCols
  rw [List.filter_eq_nil_iff] at noCols
  have computed : entry.1.flag.computed = true := by
    simpa using noCols entry.1 (List.of_mem_zip member).1
  rw [if_pos computed]

theorem switched_of_noInsertCols (none : (insertCols table).isEmpty = true)
    (on : Bool) : switched table on = [] := by
  unfold switched identityInsert
  rw [List.isEmpty_iff.mp none]
  rfl

theorem statements_dumpDefaultRows (table : Table) : Sealed (dumpDefaultRows db table) ∧
      statements (dumpDefaultRows db table) = table.rows.map fun _ => .insert table.name [[]] := by
  have each : ∀ vals ∈ table.rows, Sealed [Write.defaultValues db table.name, .go] :=
    fun _ _ _ => rfl
  obtain ⟨isSealed, all⟩ := Sealed.flatMap each
  have ending : ∀ write ∈ (if table.rows.length > 0 then [Write.text "\n"] else []),
      Quiet write := by
    intro write member
    split at member
    · rw [List.mem_singleton.mp member]
      trivial
    · exact absurd member List.not_mem_nil
  obtain ⟨endSealed, none⟩ := statements_quiet ending
  unfold dumpDefaultRows
  refine ⟨isSealed.append endSealed, ?_⟩
  rw [isSealed, none, List.append_nil, all]
  simp [statements, ← List.map_eq_flatMap]

/-- Inserts of one to 500 rows that hold the rows of the table once and in order. -/
structure Inserts (d : Dumper) (table : Table) where
  each : List (List (List Part))
  size : ∀ rows ∈ each, 1 ≤ rows.length ∧ rows.length ≤ batchSize
  whole : each.flatten = (dumpedRows d table).map (rowParts table)

def Inserts.statements {d : Dumper} {table : Table} (inserts : Inserts d table) :
    List Statement := inserts.each.map (.insert table.name)

theorem statements_dumpRows (d : Dumper) (db : String) (table : Table)
    (data : schemaOnly d table.name = false) :
    Sealed (dumpRows db table 0 0 table.rows) ∧ ∃ inserts : Inserts d table,
      statements (dumpRows db table 0 0 table.rows) = bracket d table true ++ inserts.statements ++
        (if batchSize ∣ (dumpedRows d table).length then [] else switched table false) := by
  have rows : dumpedRows d table = table.rows := by simp [dumpedRows, data]
  obtain ⟨blocksSealed, blocks⟩ := Sealed.flatMap
    fun chunk (_ : chunk ∈ chunks batchSize [] table.rows) => (statements_block db table chunk).1
  have openSealed : Sealed (if table.rows.isEmpty then [] else switch db table true) ∧
      statements (if table.rows.isEmpty then [] else switch db table true) = bracket d table true := by
    unfold bracket
    rw [rows]
    split
    · exact ⟨fun rest => rfl, rfl⟩
    · exact statements_switch db table true
  have positive : ([] : List (List Value)).length < batchSize := by decide
  let inserts : Inserts d table :=
    { each := (chunks batchSize [] table.rows).map fun chunk => chunk.map (rowParts table)
      size := by
        intro parts member
        obtain ⟨chunk, inChunks, rfl⟩ := List.mem_map.mp member
        rw [List.length_map]
        exact length_of_mem_chunks positive inChunks
      whole := by
        rw [rows, ← List.map_flatten, flatten_chunks]
        rfl }
  rw [dumpRows_eq]
  refine ⟨openSealed.1.append blocksSealed, inserts, ?_⟩
  rw [openSealed.1, openSealed.2, blocks, rows, List.append_assoc]
  congr 1
  -- Only the last chunk can be short, and it is when 500 does not divide the number of rows.
  obtain ⟨full, last, split, allFull, ending⟩ := @chunks_eq _ batchSize [] table.rows positive
  rw [List.length_nil, Nat.zero_add] at ending
  have fullStatements : full.flatMap (fun chunk => statements (block db table chunk)) =
      full.map fun chunk => .insert table.name (chunk.map (rowParts table)) := by
    rw [List.map_eq_flatMap]
    refine List.flatMap_congr fun chunk member => ?_
    rw [(statements_block db table chunk).2, if_neg (by rw [allFull chunk member]; omega)]
  have inserted : inserts.statements = (full ++ last).map fun chunk =>
      .insert table.name (chunk.map (rowParts table)) := by
    show ((chunks batchSize [] table.rows).map _).map _ = _
    rw [split, List.map_map]
    rfl
  rw [split, List.flatMap_append, fullStatements, inserted, List.map_append, List.append_assoc]
  congr 1
  rcases ending with ⟨divides, rfl⟩ | ⟨notDivides, chunk, rfl, -, short⟩
  · rw [if_pos divides]
    rfl
  · rw [if_neg notDivides, List.flatMap_singleton, (statements_block db table chunk).2, if_pos short]
    rfl

theorem statements_dumpTable (d : Dumper) (db : String) (table : Table) :
    Sealed (dumpTable d db table) ∧ ∃ inserts : Inserts d table,
      statements (dumpTable d db table) = bracket d table true ++ inserts.statements ++
        (if batchSize ∣ (dumpedRows d table).length then [] else switched table false) := by
  obtain ⟨headSealed, headNone⟩ := statements_quiet (quiet_tableHead db table)
  unfold dumpTable
  cases data : schemaOnly d table.name with
  | true =>
    have none : dumpedRows d table = [] := by simp [dumpedRows, data]
    let inserts : Inserts d table := { each := [], size := by simp, whole := by simp [none] }
    rw [if_pos rfl, List.append_nil, headNone]
    refine ⟨headSealed, inserts, ?_⟩
    rw [none, List.length_nil, if_pos (Nat.dvd_zero _), List.append_nil]
    simp [bracket, none, Inserts.statements, inserts]
  | false =>
    rw [if_neg Bool.false_ne_true]
    by_cases noCols : (insertCols table).isEmpty = true
    · have rows : dumpedRows d table = table.rows := by simp [dumpedRows, data]
      obtain ⟨defaultSealed, defaults⟩ := statements_dumpDefaultRows db table
      let inserts : Inserts d table :=
        { each := table.rows.map fun _ => [[]]
          size := by
            intro parts member
            obtain ⟨vals, -, rfl⟩ := List.mem_map.mp member
            exact ⟨Nat.le_refl _, by decide⟩
          whole := by
            rw [rows, List.map_congr_left fun vals _ => rowParts_of_noInsertCols noCols vals]
            exact List.map_eq_flatMap.symm }
      rw [if_pos noCols, headSealed, headNone, defaults]
      refine ⟨headSealed.append defaultSealed, inserts, ?_⟩
      simp [bracket, switched_of_noInsertCols noCols, Inserts.statements, inserts]
    · obtain ⟨rowsSealed, inserts, written⟩ := statements_dumpRows d db table data
      rw [if_neg noCols, headSealed, headNone, written]
      exact ⟨headSealed.append rowsSealed, inserts, rfl⟩

/-! ### A database -/

theorem silent_dumpStatements (comment : String) (lines : List String) :
    Silent (dumpStatements comment lines) := by
  apply statements_quiet
  intro write member
  unfold dumpStatements at member
  split at member
  · exact absurd member List.not_mem_nil
  · rcases List.mem_cons.mp member with rfl | inLines
    · trivial
    · obtain ⟨line, -, inPair⟩ := List.mem_flatMap.mp inLines
      simp only [List.mem_cons, List.not_mem_nil, or_false] at inPair
      rcases inPair with rfl | rfl <;> trivial

theorem silent_dumpModule (comment kind name : String) (definition : Definition) :
    Silent (dumpModule comment kind name definition) := by
  apply statements_quiet
  intro write member
  simp only [dumpModule, List.mem_cons, List.not_mem_nil, or_false] at member
  rcases member with rfl | rfl | rfl | rfl | rfl <;> trivial

theorem statements_dumpDatabase (d : Dumper) (database : Database) :
    statements (dumpDatabase d database) =
      (dumpedTables d database).flatMap fun table =>
        statements (dumpTable d database.name table) := by
  obtain ⟨tablesSealed, tables⟩ := Sealed.flatMap
    fun table (_ : table ∈ dumpedTables d database) =>
      (statements_dumpTable d database.name table).1
  have marker : Silent [Write.text ("-- Database: " ++ database.name ++ "\n")] :=
    ⟨fun rest => rfl, rfl⟩
  have constraints : Silent (dumpConstraints database.name (dumpedTables d database)) :=
    Silent.flatMap _ fun table => silent_dumpStatements _ _
  have indexes : Silent (dumpIndexes database.name (dumpedTables d database)) :=
    Silent.flatMap _ fun table => silent_dumpStatements _ _
  have views : Silent (dumpViews d database) :=
    Silent.flatMap _ fun name => Silent.flatMap _ fun view => silent_dumpModule _ _ _ _
  have triggers : Silent (dumpTriggers (dumpedTables d database) database.triggers) :=
    Silent.flatMap _ fun trigger => silent_dumpModule _ _ _ _
  have routines : Silent (dumpRoutines database.routines) :=
    Silent.flatMap _ fun routine => silent_dumpModule _ _ _ _
  have after := (((constraints.append indexes).append views).append triggers).append routines
  unfold dumpDatabase
  rw [List.append_assoc, List.append_assoc, List.append_assoc, List.append_assoc, List.append_assoc]
  rw [marker.isSealed, marker.none, List.nil_append, tablesSealed, tables, ← List.append_assoc, ← List.append_assoc, ← List.append_assoc, after.none, List.append_nil]

/-- **The switches of a dump are a closed sequence.** Table by table, the switch of
an identity table with rows goes on before its first `INSERT` and off after its
last, there is none for another table, and the inserts of one to 500 rows hold all
its rows once and in order. -/
def SwitchedOff (d : Dumper) (database : Database) : Prop :=
  ∃ inserts : ∀ table, Inserts d table,
    statements (dumpDatabase d database) = (dumpedTables d database).flatMap fun table =>
      bracket d table true ++ (inserts table).statements ++ bracket d table false

def isOff : Statement → Bool
  | .identity _ false => true
  | _ => false

theorem countP_inserts {d : Dumper} (inserts : Inserts d table) :
    inserts.statements.countP isOff = 0 := by
  rw [List.countP_eq_zero]
  intro statement member
  obtain ⟨rows, -, rfl⟩ := List.mem_map.mp member
  exact Bool.false_ne_true

theorem countP_switched (table : Table) (on : Bool) :
    (switched table on).countP isOff = if identityInsert table && !on then 1 else 0 := by
  unfold switched
  cases identityInsert table <;> cases on <;> rfl

theorem countP_bracket (d : Dumper) (table : Table) (on : Bool) :
    (bracket d table on).countP isOff =
      if identityInsert table && !on && !(dumpedRows d table).isEmpty then 1 else 0 := by
  unfold bracket
  cases (dumpedRows d table).isEmpty with
  | true => simp
  | false => rw [if_neg Bool.false_ne_true, countP_switched]; simp

/-- How often the switch of a table is set back. -/
theorem countP_dumpTable (d : Dumper) (db : String) (table : Table) :
    (statements (dumpTable d db table)).countP isOff =
      if identityInsert table && !decide (batchSize ∣ (dumpedRows d table).length) then 1 else 0 := by
  obtain ⟨-, inserts, written⟩ := statements_dumpTable d db table
  rw [written, List.countP_append, List.countP_append, countP_bracket, countP_inserts]
  by_cases divides : batchSize ∣ (dumpedRows d table).length
  · simp [divides]
  · simp [divides, countP_switched]

/-- The last `INSERT` of an identity table is full, so its switch stays on. -/
def LeftOn (d : Dumper) (table : Table) : Prop :=
  identityInsert table = true ∧ dumpedRows d table ≠ [] ∧ batchSize ∣ (dumpedRows d table).length

theorem closing_of_not_leftOn {d : Dumper} (setBack : ¬ LeftOn d table) :
    (if batchSize ∣ (dumpedRows d table).length then [] else switched table false) =
      bracket d table false := by
  unfold bracket
  by_cases empty : dumpedRows d table = []
  · simp [empty]
  · rw [List.isEmpty_eq_false_iff.mpr empty, if_neg Bool.false_ne_true]
    by_cases divides : batchSize ∣ (dumpedRows d table).length
    · have other : identityInsert table = false :=
        Bool.eq_false_iff.mpr fun identity => setBack ⟨identity, empty, divides⟩
      simp [divides, switched, other]
    · rw [if_neg divides]

theorem not_leftOn_of_switchedOff {d : Dumper} {database : Database}
    (closed : SwitchedOff d database) : ∀ table ∈ dumpedTables d database, ¬ LeftOn d table := by
  obtain ⟨inserts, same⟩ := closed
  rw [statements_dumpDatabase] at same
  have counts := congrArg (List.countP isOff) same
  rw [List.countP_flatMap, List.countP_flatMap] at counts
  intro table member ⟨identity, notEmpty, divides⟩
  refine absurd counts (Nat.ne_of_lt (List.sum_lt_sum _ _ ?_ ⟨table, member, ?_⟩))
  · intro other _
    rw [Function.comp_apply, Function.comp_apply, countP_dumpTable, List.countP_append,
      List.countP_append, countP_bracket, countP_bracket, countP_inserts]
    by_cases otherDivides : batchSize ∣ (dumpedRows d other).length
    · simp [otherDivides]
    · have some : dumpedRows d other ≠ [] := by
        intro none
        rw [none] at otherDivides
        exact otherDivides (Nat.dvd_zero _)
      simp [otherDivides, some]
  · rw [Function.comp_apply, Function.comp_apply, countP_dumpTable, List.countP_append,
      List.countP_append, countP_bracket, countP_bracket, countP_inserts]
    simp [identity, notEmpty, divides]

theorem switchedOff_iff (d : Dumper) (database : Database) : SwitchedOff d database ↔
      ∀ table ∈ dumpedTables d database, identityInsert table = true → dumpedRows d table ≠ [] →
        ¬ batchSize ∣ (dumpedRows d table).length := by
  constructor
  · intro closed table member identity notEmpty divides
    exact not_leftOn_of_switchedOff closed table member ⟨identity, notEmpty, divides⟩
  · intro setBack
    refine ⟨fun table => (statements_dumpTable d database.name table).2.choose, ?_⟩
    rw [statements_dumpDatabase]
    refine List.flatMap_congr fun table member => ?_
    have written := (statements_dumpTable d database.name table).2.choose_spec
    have notLeft : ¬ LeftOn d table := fun ⟨identity, notEmpty, divides⟩ =>
      setBack table member identity notEmpty divides
    exact written.trans (congrArg _ (closing_of_not_leftOn notLeft))

def identityColumn : Column :=
  { name := "id", dataType := "int", flag := { identity := true, seed := "1", step := "1" } }

/-- An identity column and 500 rows. -/
def ordersTable : Table :=
  { name := "orders", columns := [identityColumn], rows := List.replicate 500 [.int 1] }

def shopDatabase : Database := { name := "shop", tables := [ordersTable] }

theorem identity_left_on : ¬ SwitchedOff {} shopDatabase := by
  intro closed
  refine not_leftOn_of_switchedOff closed ordersTable (List.mem_singleton_self _) ⟨rfl, ?_, ?_⟩
  · exact List.cons_ne_nil _ _
  · show batchSize ∣ (List.replicate 500 [Value.int 1]).length
    rw [List.length_replicate]
    exact Nat.dvd_refl 500

end DbBackup.Engine.Mssql
