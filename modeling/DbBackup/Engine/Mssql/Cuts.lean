import DbBackup.Engine.Mssql.RowLexing

/-!
Owns the shape of the pieces between the `GO` lines of a dump, and with it when
`restoreStream` and `rewriteBatch` of `internal/database/engine/mssql/ops.go` keep
what the dumper wrote.

Contract: a piece is made of whole lines, and it is either free of rows or one
`INSERT` with names before its rows (`fine_pieces`). The batches of a dump are its
pieces and every rewrite keeps their literals exactly when the statements without
rows are free of `GO` lines and shielded, and no text value has an inner `GO` line
or holds `].` (`batches_kept_iff`).
-/

set_option linter.all false

namespace DbBackup.Engine.Mssql

open Lib.Chunks Lib.GoString Lib.LineScan

/-! ### Pieces -/

/-- A write of whole lines, without rows. -/
def PlainWrite : Write → Prop
  | .text content => LineClosed content
  | .definition _ => True
  | .setIdentity _ _ _ => True
  | .insertInto _ _ _ => True
  | .defaultValues _ _ => True
  | _ => False

/-- Nothing, or the switch before the first `INSERT`. -/
def Switch (db : String) (table : Table) (on : List Write) : Prop :=
  on = [] ∨ on = [.setIdentity db table.name true]

def insertPiece (db : String) (table : Table) (on : List Write) (chunk : List (List Value)) :
    List Write :=
  (.text "\n" :: on) ++ (insertHead db table :: rowWrites table chunk ++ [Write.close])

inductive Fine : List Write → Prop where
  | plain {piece : List Write} (plain : ∀ write ∈ piece, PlainWrite write) : Fine piece
  | insert {db : String} {table : Table} {on : List Write} {chunk : List (List Value)}
      (isSwitch : Switch db table on) (notEmpty : chunk ≠ []) :
      Fine (insertPiece db table on chunk)

/-- The pieces so far are fine, and the one being written has no rows. -/
structure Tidy (cut : Cut) : Prop where
  done : ∀ piece ∈ cut.done, Fine piece
  cur : ∀ write ∈ cut.cur, PlainWrite write

variable {cut : Cut} {write : Write}

theorem Tidy.cutWrite (tidy : Tidy cut)
    (plain : PlainWrite write ∨ write = .go) : Tidy (cutWrite cut write) := by
  rcases plain with plain | rfl
  · have added : Mssql.cutWrite cut write = { cut with cur := cut.cur ++ [write] } := by
      cases write with
      | go => exact absurd plain id
      | _ => rfl
    rw [added]
    refine ⟨tidy.done, ?_⟩
    intro other member
    rcases List.mem_append.mp member with before | isLast
    · exact tidy.cur other before
    · rw [List.mem_singleton.mp isLast]
      exact plain
  · refine ⟨?_, fun other member => absurd member List.not_mem_nil⟩
    intro piece member
    rcases List.mem_append.mp member with before | isLast
    · exact tidy.done piece before
    · rw [List.mem_singleton.mp isLast]
      exact .plain tidy.cur

variable {writes : List Write}

theorem Tidy.foldl (tidy : Tidy cut) (plain : ∀ write ∈ writes, PlainWrite write ∨ write = .go) :
    Tidy (writes.foldl Mssql.cutWrite cut) := by
  induction writes generalizing cut with
  | nil => exact tidy
  | cons write rest ih =>
    exact ih (tidy.cutWrite (plain write List.mem_cons_self))
      (List.forall_mem_cons.mp plain).2

theorem foldl_cutWrite_of_noGo (noGo : ∀ write ∈ writes, write ≠ .go)
    (cut : Cut) : writes.foldl cutWrite cut = { cut with cur := cut.cur ++ writes } := by
  induction writes generalizing cut with
  | nil => rw [List.append_nil]; rfl
  | cons write rest ih =>
    have added : cutWrite cut write = { cut with cur := cut.cur ++ [write] } := by
      cases write with
      | go => exact absurd rfl (noGo .go List.mem_cons_self)
      | _ => rfl
    rw [List.foldl_cons, added,
      ih (List.forall_mem_cons.mp noGo).2]
    simp

variable {table : Table} {chunk : List (List Value)}

theorem mem_rowWrites (member : write ∈ rowWrites table chunk) :
    write = .comma ∨ ∃ vals ∈ chunk, write = .row (rowParts table vals) := by
  cases chunk with
  | nil => exact absurd member List.not_mem_nil
  | cons vals others =>
    rcases List.mem_cons.mp member with rfl | later
    · exact .inr ⟨vals, List.mem_cons_self, rfl⟩
    · obtain ⟨next, inOthers, inPair⟩ := List.mem_flatMap.mp later
      rcases List.mem_cons.mp inPair with rfl | isRow
      · exact .inl rfl
      · exact .inr ⟨next, List.mem_cons_of_mem _ inOthers, List.mem_singleton.mp isRow⟩

theorem noGo_rowWrites (member : write ∈ rowWrites table chunk) : write ≠ .go := by
  rcases mem_rowWrites member with rfl | ⟨vals, -, rfl⟩ <;> exact Write.noConfusion

variable (db : String)

theorem foldl_insertWrites (table : Table) (chunk : List (List Value)) (cut : Cut) :
    (insertWrites db table chunk).foldl cutWrite cut =
      { done := cut.done ++ [cut.cur ++ (insertHead db table :: rowWrites table chunk ++ [Write.close])]
        cur := [] } := by
  have noGo : ∀ write ∈ insertHead db table :: rowWrites table chunk ++ [Write.close],
      write ≠ .go := by
    intro write member
    rcases List.mem_append.mp member with inRows | isClose
    · rcases List.mem_cons.mp inRows with rfl | isRow
      · exact Write.noConfusion
      · exact noGo_rowWrites isRow
    · rw [List.mem_singleton.mp isClose]
      exact Write.noConfusion
  have shape : insertWrites db table chunk =
      (insertHead db table :: rowWrites table chunk ++ [Write.close]) ++ [Write.go] := by
    simp [insertWrites]
  rw [shape, List.foldl_append, foldl_cutWrite_of_noGo noGo]
  rfl

theorem plain_switch {db : String} {on : Bool}
    (member : write ∈ switch db table on) : PlainWrite write := by
  unfold switch at member
  split at member
  · rw [List.mem_singleton.mp member]
    trivial
  · exact absurd member List.not_mem_nil

/-- A piece that waits for the rows of a table. -/
structure Waiting (db : String) (table : Table) (cut : Cut) : Prop extends Tidy cut where
  lead : ∃ on, Switch db table on ∧ cut.cur = .text "\n" :: on

theorem Waiting.block {db : String} (waiting : Waiting db table cut)  (notEmpty : chunk ≠ []) :
    Tidy ((block db table chunk).foldl cutWrite cut) ∧
      (chunk.length = batchSize → Waiting db table ((block db table chunk).foldl cutWrite cut)) := by
  obtain ⟨on, isSwitch, isLead⟩ := waiting.lead
  let after : Cut := (insertWrites db table chunk).foldl cutWrite cut
  have inserted : after =
      { done := cut.done ++ [insertPiece db table on chunk], cur := [] } := by
    rw [insertPiece, ← isLead]
    exact foldl_insertWrites db table chunk cut
  have afterTidy : Tidy after := by
    rw [inserted]
    refine ⟨?_, fun write member => absurd member List.not_mem_nil⟩
    intro piece member
    rcases List.mem_append.mp member with before | isLast
    · exact waiting.done piece before
    · rw [List.mem_singleton.mp isLast]
      exact .insert isSwitch notEmpty
  have newline : LineClosed "\n" := lineClosed_newline ""
  unfold Mssql.block
  rw [List.foldl_append, List.foldl_append]
  change Tidy (List.foldl cutWrite (List.foldl cutWrite after _) _) ∧
    (_ → Waiting db table (List.foldl cutWrite (List.foldl cutWrite after _) _))
  have ending : Tidy (List.foldl cutWrite (List.foldl cutWrite after
      (if chunk.length < batchSize then switch db table false else [])) [.text "\n"]) := by
    refine (afterTidy.foldl ?_).foldl ?_
    · intro write member
      split at member
      · exact .inl (plain_switch member)
      · exact absurd member List.not_mem_nil
    · intro write member
      rw [List.mem_singleton.mp member]
      exact .inl newline
  refine ⟨ending, fun full => ⟨ending, [], .inl rfl, ?_⟩⟩
  rw [if_neg (by omega), inserted]
  rfl

theorem Waiting.rows {db : String} (waiting : Waiting db table cut) (rows : List (List Value)) :
    Tidy (((chunks batchSize [] rows).flatMap (Mssql.block db table)).foldl cutWrite cut) := by
  have positive : ([] : List (List Value)).length < batchSize := by decide
  obtain ⟨full, last, split, allFull, ending⟩ := @chunks_eq _ batchSize [] rows positive
  have afterFull : Waiting db table ((full.flatMap (Mssql.block db table)).foldl cutWrite cut) := by
    clear split ending
    induction full generalizing cut with
    | nil => exact waiting
    | cons chunk others ih =>
      have size := allFull chunk List.mem_cons_self
      have notEmpty : chunk ≠ [] := by
        rintro rfl
        exact absurd size (by decide)
      rw [List.flatMap_cons, List.foldl_append]
      exact ih ((waiting.block notEmpty).2 size)
        (List.forall_mem_cons.mp allFull).2
  rw [split, List.flatMap_append, List.foldl_append]
  rcases ending with ⟨-, rfl⟩ | ⟨-, chunk, rfl, notEmpty, -⟩
  · exact afterFull.toTidy
  · rw [List.flatMap_singleton]
    exact (afterFull.block notEmpty).1

theorem Waiting.dumpRows {db : String} (tidy : Tidy cut)
    (lead : cut.cur = [.text "\n"]) (rows : List (List Value)) :
    Tidy ((Mssql.dumpRows db table 0 0 rows).foldl cutWrite cut) := by
  rw [dumpRows_eq, List.foldl_append]
  refine Waiting.rows ⟨tidy.foldl ?_, ?_⟩ rows
  · intro write member
    split at member
    · exact absurd member List.not_mem_nil
    · exact .inl (plain_switch member)
  · unfold switch
    split
    · exact ⟨[], .inl rfl, lead⟩
    · split
      · refine ⟨_, .inr rfl, ?_⟩
        show cut.cur ++ [_] = _
        rw [lead]
        rfl
      · exact ⟨[], .inl rfl, lead⟩

theorem tidy_dumpTable (d : Dumper) (db : String) (table : Table) (tidy : Tidy cut) :
    Tidy ((dumpTable d db table).foldl cutWrite cut) := by
  have newline : LineClosed "\n" := lineClosed_newline ""
  have drop : LineClosed ("DROP TABLE IF EXISTS " ++ tableName db table.name ++ ";\n") :=
    lineClosed_append _ (by decide)
  have create : LineClosed ("-- Table: " ++ table.name ++ "\n" ++ createTable db table) := by
    unfold createTable
    rw [← String.append_assoc]
    exact lineClosed_append _ (by decide)
  unfold dumpTable
  rw [List.foldl_append]
  have headTidy : Tidy (List.foldl cutWrite cut
      [.text ("DROP TABLE IF EXISTS " ++ tableName db table.name ++ ";\n"), .go,
        .text ("-- Table: " ++ table.name ++ "\n" ++ createTable db table), .go, .text "\n"]) := by
    apply tidy.foldl
    intro write member
    simp only [List.mem_cons, List.not_mem_nil, or_false] at member
    rcases member with rfl | rfl | rfl | rfl | rfl
    · exact .inl drop
    · exact .inr rfl
    · exact .inl create
    · exact .inr rfl
    · exact .inl newline
  split
  · exact headTidy
  · split
    · refine headTidy.foldl ?_
      intro write member
      rcases List.mem_append.mp member with inRows | isLast
      · obtain ⟨vals, -, inPair⟩ := List.mem_flatMap.mp inRows
        rcases List.mem_cons.mp inPair with rfl | isGo
        · exact .inl trivial
        · exact .inr (List.mem_singleton.mp isGo)
      · split at isLast
        · rw [List.mem_singleton.mp isLast]
          exact .inl newline
        · exact absurd isLast List.not_mem_nil
    · exact Waiting.dumpRows headTidy rfl table.rows

theorem plain_dumpStatements {comment : String} (closed : LineClosed comment) {lines : List String}
    (member : write ∈ dumpStatements comment lines) :
    PlainWrite write ∨ write = .go := by
  unfold dumpStatements at member
  split at member
  · exact absurd member List.not_mem_nil
  · rcases List.mem_cons.mp member with rfl | inLines
    · exact .inl closed
    · obtain ⟨line, -, inPair⟩ := List.mem_flatMap.mp inLines
      rcases List.mem_cons.mp inPair with rfl | isGo
      · exact .inl (lineClosed_newline line)
      · exact .inr (List.mem_singleton.mp isGo)

theorem plain_dumpModule {comment kind name : String} {definition : Definition}
    (member : write ∈ dumpModule comment kind name definition) :
    PlainWrite write ∨ write = .go := by
  simp only [dumpModule, List.mem_cons, List.not_mem_nil, or_false] at member
  rcases member with rfl | rfl | rfl | rfl | rfl
  · exact .inl (lineClosed_append _ (by decide))
  · exact .inr rfl
  · exact .inl trivial
  · exact .inr rfl
  · exact .inl (lineClosed_newline "")

variable {tables : List Table}

theorem plain_dumpConstraints {db : String}
    (member : write ∈ dumpConstraints db tables) : PlainWrite write ∨ write = .go := by
  obtain ⟨table, -, inTable⟩ := List.mem_flatMap.mp member
  exact plain_dumpStatements (lineClosed_newline _) inTable

theorem plain_dumpIndexes {db : String}
    (member : write ∈ dumpIndexes db tables) : PlainWrite write ∨ write = .go := by
  obtain ⟨table, -, inTable⟩ := List.mem_flatMap.mp member
  exact plain_dumpStatements (lineClosed_newline _) inTable

theorem plain_dumpViews {d : Dumper} {database : Database}
    (member : write ∈ dumpViews d database) : PlainWrite write ∨ write = .go := by
  obtain ⟨name, -, inName⟩ := List.mem_flatMap.mp member
  obtain ⟨view, -, inView⟩ := List.mem_flatMap.mp inName
  exact plain_dumpModule inView

theorem plain_dumpTriggers {triggers : List Trigger}
    (member : write ∈ dumpTriggers tables triggers) : PlainWrite write ∨ write = .go := by
  obtain ⟨trigger, -, inTrigger⟩ := List.mem_flatMap.mp member
  exact plain_dumpModule inTrigger

theorem plain_dumpRoutines {routines : List Routine}
    (member : write ∈ dumpRoutines routines) : PlainWrite write ∨ write = .go := by
  obtain ⟨routine, -, inRoutine⟩ := List.mem_flatMap.mp member
  exact plain_dumpModule inRoutine

theorem tidy_dumpDatabase (d : Dumper) (database : Database) (tidy : Tidy cut) :
    Tidy ((dumpDatabase d database).foldl cutWrite cut) := by
  have marker : ∀ write ∈ [Write.text ("-- Database: " ++ database.name ++ "\n")],
      PlainWrite write ∨ write = .go := by
    intro write member
    rw [List.mem_singleton.mp member]
    exact .inl (lineClosed_newline _)
  have tables : ∀ (tables : List Table) {cut : Cut}, Tidy cut →
      Tidy ((tables.flatMap (dumpTable d database.name)).foldl cutWrite cut) := by
    intro tables
    induction tables with
    | nil => exact fun tidy => tidy
    | cons table rest ih =>
      intro cut tidy
      rw [List.flatMap_cons, List.foldl_append]
      exact ih (tidy_dumpTable d database.name table tidy)
  unfold dumpDatabase
  simp only [List.foldl_append]
  refine ((((((tables _ (tidy.foldl marker)).foldl ?_).foldl ?_).foldl ?_).foldl ?_).foldl ?_)
  · exact fun write => plain_dumpConstraints
  · exact fun write => plain_dumpIndexes
  · exact fun write => plain_dumpViews
  · exact fun write => plain_dumpTriggers
  · exact fun write => plain_dumpRoutines

theorem fine_pieces (d : Dumper) (banner : String) (databases : List Database) :
    ∀ piece ∈ pieces (dump d banner databases), Fine piece := by
  have nothing : Tidy {} :=
    ⟨fun piece member => absurd member List.not_mem_nil,
      fun write member => absurd member List.not_mem_nil⟩
  have all : ∀ (databases : List Database) {cut : Cut}, Tidy cut →
      Tidy ((databases.flatMap (dumpDatabase d)).foldl cutWrite cut) := by
    intro databases
    induction databases with
    | nil => exact fun tidy => tidy
    | cons database rest ih =>
      intro cut tidy
      rw [List.flatMap_cons, List.foldl_append]
      exact ih (tidy_dumpDatabase d database tidy)
  have bannerPlain : ∀ write ∈ [Write.text (banner ++ "--\n\n")], PlainWrite write ∨ write = .go := by
    intro write member
    rw [List.mem_singleton.mp member]
    exact .inl (lineClosed_append _ (by decide))
  have tidy := all databases (nothing.foldl bannerPlain)
  intro piece member
  unfold pieces dump at member
  rw [List.foldl_append] at member
  rcases List.mem_append.mp member with isDone | isCur
  · exact tidy.done piece isDone
  · rw [List.mem_singleton.mp isCur]
    exact .plain tidy.cur

/-! ### Statements without rows -/

/-- A write that holds no row. -/
def isFrame : Write → Bool
  | .row _ => false
  | .comma => false
  | .close => false
  | _ => true

/-- A write of names and expressions only. -/
def isSchema : Write → Bool
  | .definition _ => false
  | write => isFrame write

/-- A piece without its rows. -/
def frameText (piece : List Write) : String := output (piece.filter isFrame)

/-- A piece without its rows and without the text of a view, a trigger or a routine. -/
def schemaText (piece : List Write) : String := output (piece.filter isSchema)

theorem lineClosed_output (plain : PlainWrite write) : LineClosed write.output := by
  cases write with
  | text content => exact plain
  | definition definition => exact lineClosed_append _ (by decide)
  | setIdentity db table on => cases on <;> exact lineClosed_append _ (by decide)
  | insertInto db table cols => exact lineClosed_append _ (by decide)
  | defaultValues db table => exact lineClosed_append _ (by decide)
  | _ => exact absurd plain id

theorem blankBlind_go : BlankBlind fun line => isGOSeparator line = false := by
  intro line other same notGo
  unfold isGOSeparator at *
  rwa [← same]

theorem goFree_append_semicolon {text : String} (free : GoFree text) : GoFree (text ++ ";") := by
  obtain ⟨init, last, head, tail, textLines, noLines, whole⟩ :=
    charLines_append_bar text.toList [] (show ';' ≠ '\n' by decide)
  have nothing : head = [] ∧ tail = [] := by
    have single : ([[]] : List (List Char)) = head :: tail := noLines
    rw [List.cons.injEq] at single
    exact ⟨single.1.symm, single.2.symm⟩
  obtain ⟨rfl, rfl⟩ := nothing
  have shape : (text ++ ";").toList = text.toList ++ [';'] := by
    rw [String.toList_append]
    rfl
  unfold GoFree EveryLine splitNewlines at *
  rw [shape, List.splitOn_eq_splitOnP] at *
  change ∀ line ∈ (charLines _).map _, _ at free
  change ∀ line ∈ (charLines _).map _, _
  rw [whole]
  rw [textLines] at free
  intro line member
  rw [List.map_append, List.mem_append] at member
  rcases member with inInit | isLast
  · exact free line (by rw [List.map_append, List.mem_append]; exact .inl inInit)
  · rw [List.mem_singleton.mp isLast]
    exact not_go_of_bar (c := ';') (by simp) (by decide)

theorem goFree_definitionText (definition : Definition) : GoFree (definitionText definition) := by
  have trimmed : GoFree (trimSpace definition.text) := definition.goFree.trimSpace blankBlind_go
  have semicolon : GoFree (trimSuffix (trimSpace definition.text) ";" ++ ";") := by
    rcases trimSuffix_cases (trimSpace definition.text) ";" with same | shorter
    · rw [same]
      exact goFree_append_semicolon trimmed
    · rw [← shorter]
      exact trimmed
  have ending : (";\n" : String) = ";" ++ "\n" := by decide
  unfold definitionText GoFree EveryLine
  rw [ending, ← String.append_assoc, ← String.append_empty (s := _ ++ "\n"), splitNewlines_append]
  intro line member
  rcases List.mem_append.mp member with inText | isLast
  · exact semicolon line inText
  · rw [List.mem_singleton.mp (show line ∈ [""] from isLast)]
    decide

variable {piece : List Write}

theorem plainPiece_lines (plain : ∀ write ∈ piece, PlainWrite write) : LineClosed (output piece) ∧
      (GoFree (output piece) ↔ ∀ write ∈ piece, GoFree write.output) := by
  induction piece with
  | nil => exact ⟨rfl, iff_of_true (by unfold GoFree EveryLine; decide) (by simp)⟩
  | cons write rest ih =>
    obtain ⟨restClosed, restFree⟩ :=
      ih (List.forall_mem_cons.mp plain).2
    have closed := lineClosed_output (plain write List.mem_cons_self)
    rw [output_cons, goFree_append_iff closed, restFree, List.forall_mem_cons]
    exact ⟨closed.append restClosed, Iff.rfl⟩

theorem goFree_plainPiece_iff (plain : ∀ write ∈ piece, PlainWrite write) :
    GoFree (output piece) ↔ GoFree (schemaText piece) := by
  have schemaPlain : ∀ write ∈ piece.filter isSchema, PlainWrite write := fun write member =>
    plain write (List.mem_filter.mp member).1
  unfold schemaText
  rw [(plainPiece_lines plain).2, (plainPiece_lines schemaPlain).2]
  constructor
  · exact fun free write member => free write (List.mem_filter.mp member).1
  · intro free write member
    have isPlain := plain write member
    cases write with
    | definition content => exact goFree_definitionText content
    | text content => exact free _ (List.mem_filter.mpr ⟨member, rfl⟩)
    | setIdentity db table on => exact free _ (List.mem_filter.mpr ⟨member, rfl⟩)
    | insertInto db table cols => exact free _ (List.mem_filter.mpr ⟨member, rfl⟩)
    | defaultValues db table => exact free _ (List.mem_filter.mpr ⟨member, rfl⟩)
    | _ => exact absurd isPlain id

theorem frameText_plainPiece (plain : ∀ write ∈ piece, PlainWrite write) :
    frameText piece = output piece := by
  unfold frameText
  rw [List.filter_eq_self.mpr]
  intro write member
  have isPlain := plain write member
  cases write with
  | row parts => exact absurd isPlain id
  | comma => exact absurd isPlain id
  | close => exact absurd isPlain id
  | _ => rfl

/-! ### An `INSERT` -/

/-- What an `INSERT` begins with. -/
def insertStart (db : String) (table : Table) (on : List Write) : String :=
  output on ++ (insertHead db table).output

theorem filter_rowWrites (table : Table) (chunk : List (List Value)) {keep : Write → Bool}
    (rows : ∀ parts, keep (.row parts) = false) (comma : keep .comma = false) :
    (rowWrites table chunk).filter keep = [] := by
  rw [List.filter_eq_nil_iff]
  intro write member
  rcases mem_rowWrites member with rfl | ⟨vals, -, rfl⟩
  · simp [comma]
  · simp [rows]

variable {on : List Write}

theorem filter_insertPiece (table : Table) (chunk : List (List Value))
    (isSwitch : Switch db table on) {keep : Write → Bool}
    (text : keep (.text "\n") = true) (switches : keep (.setIdentity db table.name true) = true)
    (head : keep (insertHead db table) = true) (rows : ∀ parts, keep (.row parts) = false)
    (comma : keep .comma = false) (close : keep .close = false) :
    output ((insertPiece db table on chunk).filter keep) = "\n" ++ insertStart db table on := by
  have kept : (insertPiece db table on chunk).filter keep =
      .text "\n" :: (on ++ [insertHead db table]) := by
    unfold insertPiece
    rw [List.filter_append, List.filter_append, List.filter_cons_of_pos text,
      List.filter_cons_of_pos head, filter_rowWrites table chunk rows comma]
    rcases isSwitch with rfl | rfl
    · simp [close]
    · simp [switches, close]
  unfold insertStart
  rw [kept, output_cons, output_append, output_cons (insertHead db table)]
  exact congrArg _ (congrArg _ (String.append_empty (s := _)))

theorem output_insertPiece (table : Table) (on : List Write) (chunk : List (List Value)) :
    output (insertPiece db table on chunk) =
      "\n" ++ insertStart db table on ++ String.ofList (rowsText table chunk ++ ";\n".toList) := by
  have rows : String.ofList (rowsText table chunk ++ ";\n".toList) =
      output (rowWrites table chunk) ++ ";\n" := by
    apply String.toList_injective
    rw [String.toList_ofList, String.toList_append]
    rfl
  have closing : output [.close] = ";\n" := by decide
  unfold insertPiece insertStart
  rw [rows, output_append, output_append, output_cons, output_cons (insertHead db table), closing,
    String.append_assoc, String.append_assoc, String.append_assoc, String.append_assoc]
  rfl

theorem lexes_insertStart (table : Table) (isSwitch : Switch db table on) :
    Lexes .code (insertStart db table on).toList .code := by
  have head : Lexes .code (insertHead db table).output.toList .code := lexes_insertInto _ _ _
  unfold insertStart
  rw [String.toList_append]
  refine Lexes.append ?_ head
  rcases isSwitch with rfl | rfl
  · exact lexes_of_decide (by decide)
  · rw [output_cons, String.toList_append]
    exact (lexes_setIdentity _ _ _).append (lexes_of_decide (by decide))

/-- It begins and ends with a word. -/
theorem insertStart_firm (table : Table) (isSwitch : Switch db table on) :
    ∃ first middle, Firm first ∧ '[' ∈ middle.toList ∧
      insertStart db table on = first ++ middle ++ "VALUES" ++ "\n" := by
  let names : String := tableName db table.name ++ " (" ++
    ", ".intercalate (((insertCols table).map Column.name).map quoteMSSQLIdent) ++ ") "
  have bracket : '[' ∈ (tableName db table.name).toList := by
    unfold tableName
    rw [String.toList_append, String.toList_append]
    exact List.mem_append_left _ (List.mem_append_right _ (by decide))
  have inNames : '[' ∈ names.toList := by
    simp only [names, String.toList_append]
    exact List.mem_append_left _ (List.mem_append_left _ (List.mem_append_left _ bracket))
  have head : (insertHead db table).output = "INSERT" ++ (" INTO " ++ names) ++ "VALUES" ++ "\n" := by
    have starts : ("INSERT INTO " : String) = "INSERT" ++ " INTO " := by decide
    have ends : (") VALUES\n" : String) = ") " ++ ("VALUES" ++ "\n") := by decide
    change "INSERT INTO " ++ tableName db table.name ++ " (" ++
      ", ".intercalate (((insertCols table).map Column.name).map quoteMSSQLIdent) ++ ") VALUES\n" = _
    rw [starts, ends]
    simp only [names, String.append_assoc]
  rcases isSwitch with rfl | rfl
  · refine ⟨"INSERT", " INTO " ++ names, by decide, ?_, ?_⟩
    · rw [String.toList_append]
      exact List.mem_append_right _ inNames
    · unfold insertStart
      rw [head]
      exact String.empty_append
  · refine ⟨"SET", " IDENTITY_INSERT " ++ tableName db table.name ++ " ON;\n" ++ "INSERT INTO " ++ names,
      by decide, ?_, ?_⟩
    · rw [String.toList_append]
      exact List.mem_append_right _ inNames
    · have starts : ("SET IDENTITY_INSERT " : String) = "SET" ++ " IDENTITY_INSERT " := by decide
      have joined : ("INSERT INTO " : String) = "INSERT" ++ " INTO " := by decide
      have switchText : output [.setIdentity db table.name true] =
          "SET IDENTITY_INSERT " ++ tableName db table.name ++ " ON;\n" := by
        rw [output_cons]
        exact String.append_empty
      unfold insertStart
      rw [head, switchText, starts, joined]
      simp only [String.append_assoc]

theorem insertFrame_insertStart (table : Table)
    (isSwitch : Switch db table on) : InsertFrame (insertStart db table on).toList := by
  obtain ⟨first, middle, -, bracket, shape⟩ := insertStart_firm db table isSwitch
  refine ⟨lexes_insertStart db table isSwitch, ?_, ?_⟩
  · rw [shape, String.toList_append, String.toList_append, String.toList_append]
    exact List.mem_append_left _ (List.mem_append_left _ (List.mem_append_right _ bracket))
  · have newline : "\n".toList = ['\n'] := by decide
    rw [shape, String.toList_append, newline]
    exact List.getLast?_concat

theorem isSpace_newline : ∀ c ∈ "\n".toList, isSpace c = true :=
  List.all_eq_true.mp (by decide)

theorem trimSpace_newline_append (text : String) : trimSpace ("\n" ++ text) = trimSpace text :=
  trimSpace_blank_append isSpace_newline

theorem trimSpace_insertPiece (table : Table)
    (isSwitch : Switch db table on) (chunk : List (List Value)) :
    trimSpace (output (insertPiece db table on chunk)) =
      String.ofList ((insertStart db table on).toList ++ (rowsText table chunk ++ [';'])) := by
  obtain ⟨first, middle, firm, -, shape⟩ := insertStart_firm db table isSwitch
  have words : String.ofList ((insertStart db table on).toList ++ (rowsText table chunk ++ [';'])) =
      first ++ (middle ++ "VALUES" ++ "\n" ++ String.ofList (rowsText table chunk)) ++ ";" := by
    apply String.toList_injective
    rw [shape]
    simp
  have closing : output (insertPiece db table on chunk) = "\n" ++
      (String.ofList ((insertStart db table on).toList ++ (rowsText table chunk ++ [';'])) ++ "\n") := by
    have ending : ";\n".toList = [';', '\n'] := by decide
    rw [output_insertPiece, ending]
    apply String.toList_injective
    simp
  rw [closing, trimSpace_newline_append, words]
  exact trimSpace_append_blank (firm.append (by decide)) isSpace_newline

theorem shielded_of_noLiteral {text : String} {mode : Mode} (lexes : Lexes .code text.toList mode) :
    Shielded text := by
  intro before inner after _ _ index _ _ isTrue
  exact absurd (lexes.none true (List.mem_of_getElem? isTrue)) (by decide)

theorem shielded_insertStart (table : Table)
    (isSwitch : Switch db table on) : Shielded (trimSpace ("\n" ++ insertStart db table on)) := by
  obtain ⟨first, middle, firm, -, shape⟩ := insertStart_firm db table isSwitch
  have lexes := lexes_insertStart db table isSwitch
  rw [shape, String.toList_append] at lexes
  have trimmed : trimSpace (first ++ middle ++ "VALUES" ++ "\n") = first ++ middle ++ "VALUES" :=
    trimSpace_append_blank (firm.append (by decide)) isSpace_newline
  rw [trimSpace_newline_append, shape, trimmed]
  exact shielded_of_noLiteral lexes.of_append

theorem row_mem_insertPiece {db : String}  (isSwitch : Switch db table on) (parts : List Part) :
    .row parts ∈ insertPiece db table on chunk ↔ ∃ vals ∈ chunk, parts = rowParts table vals := by
  constructor
  · intro member
    have inRows : Write.row parts ∈ rowWrites table chunk := by
      unfold insertPiece insertHead at member
      rcases isSwitch with rfl | rfl <;> simpa using member
    rcases mem_rowWrites inRows with isComma | ⟨vals, inChunk, isRow⟩
    · exact absurd isComma Write.noConfusion
    · exact ⟨vals, inChunk, Write.row.inj isRow⟩
  · rintro ⟨vals, inChunk, rfl⟩
    have inRows : Write.row (rowParts table vals) ∈ rowWrites table chunk := by
      cases chunk with
      | nil => exact absurd inChunk List.not_mem_nil
      | cons first others =>
        rcases List.mem_cons.mp inChunk with rfl | later
        · exact List.mem_cons_self
        · exact List.mem_cons_of_mem _ (List.mem_flatMap.mpr ⟨vals, later, by simp⟩)
    unfold insertPiece
    simp [inRows]

theorem goFree_rows_iff (table : Table) (notEmpty : chunk ≠ []) :
    GoFree (String.ofList (rowsText table chunk ++ ";\n".toList)) ↔
      ∀ vals ∈ chunk, ∀ part ∈ rowParts table vals, part.Holds GoInner := by
  have calm : ∀ row ∈ chunk, ∀ part ∈ rowParts table row, part.Calm :=
    fun row _ part member => rowParts_of_valuePart (fun _ _ => (plain_valuePart _ _).calm) member
  have ending : ";\n".toList = [';', '\n'] := by decide
  have none : GoInner [] := goTail_barLaw.calm [] (by simp) (by simp)
  have all := goTail_barLaw.rows table notEmpty calm none ['\n']
  obtain ⟨rest, opening⟩ := rowsText_opening table notEmpty
  rw [List.nil_append, opening, List.cons_append, ← List.nil_append ('(' :: _),
    goTail_append_bar_iff [] _ (by decide)] at all
  have last : GoTail ['\n'] := by
    intro line member
    rw [List.mem_singleton.mp (show line ∈ [[]] from member)]
    decide
  rw [ending, opening, List.cons_append, goFree_bar_iff _ (by decide)]
  simpa only [none, last, true_and, and_true] using all

/-! ### Pieces and batches -/

theorem piece_kept_iff (fine : Fine piece) : LineClosed (output piece) ∧
      (GoFree (output piece) ∧ Shielded (trimSpace (output piece)) ↔
        (GoFree (schemaText piece) ∧ Shielded (trimSpace (frameText piece))) ∧
          ∀ parts, .row parts ∈ piece → ∀ part ∈ parts,
            part.Holds GoInner ∧ part.Holds NoBracketDot) := by
  cases fine with
  | plain plain =>
    have noRows : ∀ parts, .row parts ∉ piece := fun parts member => absurd (plain _ member) id
    refine ⟨(plainPiece_lines plain).1, ?_⟩
    rw [goFree_plainPiece_iff plain, frameText_plainPiece plain]
    exact (and_iff_left fun parts member => absurd member (noRows parts)).symm
  | @insert db table on chunk isSwitch notEmpty =>
    have schema : schemaText (insertPiece db table on chunk) = "\n" ++ insertStart db table on :=
      filter_insertPiece db table chunk isSwitch rfl rfl rfl (fun _ => rfl) rfl rfl
    have frame : frameText (insertPiece db table on chunk) = "\n" ++ insertStart db table on :=
      filter_insertPiece db table chunk isSwitch rfl rfl rfl (fun _ => rfl) rfl rfl
    have startClosed : LineClosed ("\n" ++ insertStart db table on) := by
      obtain ⟨first, middle, -, -, shape⟩ := insertStart_firm db table isSwitch
      rw [shape, ← String.append_assoc]
      exact lineClosed_newline _
    have rows : ∀ parts, .row parts ∈ insertPiece db table on chunk ↔
        ∃ vals ∈ chunk, parts = rowParts table vals := row_mem_insertPiece isSwitch
    have rowsFree : GoFree (String.ofList (rowsText table chunk ++ ";\n".toList)) ↔
        ∀ vals ∈ chunk, ∀ part ∈ rowParts table vals, part.Holds GoInner :=
      goFree_rows_iff table notEmpty
    have shielded := shielded_insert_iff (insertFrame_insertStart db table isSwitch) table notEmpty
    refine ⟨?_, ?_⟩
    · rw [output_insertPiece]
      refine lineClosed_append _ ?_
      rw [hasSuffix_iff]
      refine ⟨String.ofList (rowsText table chunk ++ [';']), ?_⟩
      apply String.toList_injective
      have ending : ";\n".toList = [';', '\n'] := by decide
      rw [ending]
      simp
    · rw [trimSpace_insertPiece db table isSwitch, shielded, output_insertPiece,
        goFree_append_iff startClosed, rowsFree, schema, frame]
      have always := shielded_insertStart db table isSwitch
      constructor
      · rintro ⟨⟨startFree, inner⟩, dots⟩
        refine ⟨⟨startFree, always⟩, ?_⟩
        intro parts member part inParts
        obtain ⟨vals, inChunk, rfl⟩ := (rows parts).mp member
        exact ⟨inner vals inChunk part inParts, dots vals inChunk part inParts⟩
      · rintro ⟨⟨startFree, -⟩, clean⟩
        have each : ∀ vals ∈ chunk, ∀ part ∈ rowParts table vals,
            part.Holds GoInner ∧ part.Holds NoBracketDot := fun vals inChunk part inParts =>
          clean _ ((rows _).mpr ⟨vals, inChunk, rfl⟩) part inParts
        exact ⟨⟨startFree, fun vals inChunk part inParts => (each vals inChunk part inParts).1⟩,
          fun vals inChunk part inParts => (each vals inChunk part inParts).2⟩

theorem mem_pieces_iff {write : Write} (notGo : write ≠ .go) (writes : List Write) :
    (∃ piece ∈ pieces writes, write ∈ piece) ↔ write ∈ writes := by
  have run : ∀ (writes : List Write) (cut : Cut),
      (∃ piece ∈ (writes.foldl cutWrite cut).done ++ [(writes.foldl cutWrite cut).cur],
        write ∈ piece) ↔ (∃ piece ∈ cut.done ++ [cut.cur], write ∈ piece) ∨ write ∈ writes := by
    intro writes
    induction writes with
    | nil => intro cut; simp
    | cons first rest ih =>
      intro cut
      rw [List.foldl_cons, ih, List.mem_cons, ← or_assoc]
      have step : (∃ piece ∈ (cutWrite cut first).done ++ [(cutWrite cut first).cur],
          write ∈ piece) ↔ (∃ piece ∈ cut.done ++ [cut.cur], write ∈ piece) ∨ write = first := by
        cases first with
        | go => simp [cutWrite, notGo, or_and_right, exists_or]
        | _ => simp [cutWrite, or_and_right, exists_or, or_assoc]
      rw [step]
  have whole := run writes {}
  simpa [pieces] using whole

/-- The rows in the writes of a table. -/
theorem row_mem_dumpTable_iff (d : Dumper) (db : String) (table : Table) (parts : List Part) :
    .row parts ∈ dumpTable d db table ↔
      (insertCols table).isEmpty = false ∧ ∃ vals ∈ dumpedRows d table, parts = rowParts table vals := by
  have inHead : Write.row parts ∉ [Write.text ("DROP TABLE IF EXISTS " ++ tableName db table.name ++
      ";\n"), .go, .text ("-- Table: " ++ table.name ++ "\n" ++ createTable db table), .go,
      .text "\n"] := by simp
  have inSwitch : ∀ on, Write.row parts ∉ switch db table on := fun on member =>
    absurd (plain_switch member) id
  unfold dumpTable dumpedRows
  rw [List.mem_append, or_iff_right inHead]
  cases schemaOnly d table.name with
  | true => simp
  | false =>
    rw [if_neg Bool.false_ne_true, if_neg Bool.false_ne_true]
    cases empty : (insertCols table).isEmpty with
    | true =>
      rw [if_pos rfl]
      refine iff_of_false ?_ (by simp)
      unfold dumpDefaultRows
      split <;> simp
    | false =>
      have inChunks : ∀ vals, vals ∈ table.rows ↔
          ∃ chunk ∈ chunks batchSize [] table.rows, vals ∈ chunk := by
        intro vals
        rw [← List.mem_flatten, flatten_chunks, List.nil_append]
      have inBlock : ∀ chunk, Write.row parts ∈ block db table chunk ↔
          ∃ vals ∈ chunk, parts = rowParts table vals := by
        intro chunk
        rw [← row_mem_insertPiece (.inl rfl : Switch db table [])]
        unfold block insertWrites insertPiece
        have short : Write.row parts ∉
            (if chunk.length < batchSize then switch db table false else []) := by
          split
          · exact inSwitch false
          · exact List.not_mem_nil
        simp [short]
      have before : Write.row parts ∉
          (if table.rows.isEmpty then [] else switch db table true) := by
        split
        · exact List.not_mem_nil
        · exact inSwitch true
      rw [if_neg Bool.false_ne_true, dumpRows_eq, List.mem_append, or_iff_right before,
        List.mem_flatMap]
      simp only [inBlock, inChunks, true_and]
      constructor
      · rintro ⟨chunk, isChunk, vals, inChunk, same⟩
        exact ⟨vals, ⟨chunk, isChunk, inChunk⟩, same⟩
      · rintro ⟨vals, ⟨chunk, isChunk, inChunk⟩, same⟩
        exact ⟨chunk, isChunk, vals, inChunk, same⟩

theorem row_mem_dump_iff (d : Dumper) (banner : String) (databases : List Database)
    (parts : List Part) :
    .row parts ∈ dump d banner databases ↔
      ∃ database ∈ databases, ∃ table ∈ dumpedTables d database,
        .row parts ∈ dumpTable d database.name table := by
  have noRow : ∀ {writes : List Write}, (∀ write ∈ writes, PlainWrite write ∨ write = .go) →
      Write.row parts ∉ writes := by
    intro writes plain member
    rcases plain _ member with isPlain | isGo
    · exact absurd isPlain id
    · exact absurd isGo Write.noConfusion
  have inDatabase : ∀ database, .row parts ∈ dumpDatabase d database ↔
      ∃ table ∈ dumpedTables d database, .row parts ∈ dumpTable d database.name table := by
    intro database
    unfold dumpDatabase
    rw [List.mem_append, or_iff_left (noRow fun _ => plain_dumpRoutines), List.mem_append,
      or_iff_left (noRow fun _ => plain_dumpTriggers), List.mem_append,
      or_iff_left (noRow fun _ => plain_dumpViews), List.mem_append,
      or_iff_left (noRow fun _ => plain_dumpIndexes), List.mem_append,
      or_iff_left (noRow fun _ => plain_dumpConstraints), List.mem_append, List.mem_flatMap]
    simp
  unfold dump
  rw [List.mem_append, List.mem_flatMap]
  simp [inDatabase]

theorem rows_clean_iff (d : Dumper) (banner : String) (databases : List Database) :
    (∀ parts, .row parts ∈ dump d banner databases → ∀ part ∈ parts,
        part.Holds GoInner ∧ part.Holds NoBracketDot) ↔
      ∀ database ∈ databases, ∀ table ∈ dumpedTables d database, ∀ vals ∈ dumpedRows d table,
        ∀ entry ∈ table.columns.zip vals, entry.1.flag.computed = false →
          ValueClean entry.1.dataType entry.2 := by
  have inRow : ∀ (table : Table) (vals : List Value),
      (∀ part ∈ rowParts table vals, part.Holds GoInner ∧ part.Holds NoBracketDot) ↔
        ∀ entry ∈ table.columns.zip vals, entry.1.flag.computed = false →
          ValueClean entry.1.dataType entry.2 := by
    intro table vals
    unfold rowParts
    rw [List.forall_mem_filterMap]
    refine forall_congr' fun entry => forall_congr' fun _ => ?_
    rw [← holds_valuePart_iff]
    cases entry.1.flag.computed <;> simp
  simp only [row_mem_dump_iff, row_mem_dumpTable_iff]
  constructor
  · intro clean database inDatabases table isTable vals inRows
    rw [← inRow]
    intro part inParts
    have hasCols : (insertCols table).isEmpty = false := by
      by_contra empty
      rw [rowParts_of_noInsertCols (by simpa using empty)] at inParts
      exact absurd inParts List.not_mem_nil
    exact clean _ ⟨database, inDatabases, table, isTable, hasCols, vals, inRows, rfl⟩ part inParts
  · rintro clean parts ⟨database, inDatabases, table, isTable, -, vals, inRows, rfl⟩
    exact (inRow table vals).mpr (clean database inDatabases table isTable vals inRows)

/-! ### Restoring -/

/-- **Batches are cut only where the dump cut them, and a rewrite leaves literals
alone.** -/
def BatchesKept (writes : List Write) : Prop :=
  CutAtGO writes ∧ ∀ batch ∈ yields (output writes), ∀ sourceDB firstDB,
    LiteralsKept batch.1 sourceDB firstDB

theorem batchesKept_iff_pieces (fine : ∀ piece ∈ pieces writes, Fine piece) : BatchesKept writes ↔
      ∀ piece ∈ pieces writes, GoFree (output piece) ∧ Shielded (trimSpace (output piece)) := by
  have cut := cutAtGO_iff fun piece member => (piece_kept_iff (fine piece member)).1
  have literals : (∀ batch ∈ yields (output writes), ∀ sourceDB firstDB,
      LiteralsKept batch.1 sourceDB firstDB) ↔
        ∀ text ∈ (yields (output writes)).map Prod.fst, Shielded text := by
    simp only [literalsKept_iff, List.mem_map, forall_exists_index, and_imp,
      forall_apply_eq_imp_iff₂]
  have nothing : Lexes .code "".toList .code := lexes_of_decide (by decide)
  have blank : Shielded "" := shielded_of_noLiteral nothing
  unfold BatchesKept
  rw [literals, forall₂_and, ← cut]
  refine and_congr_right fun isCut => ?_
  rw [isCut]
  constructor
  · intro shielded piece member
    by_cases empty : trimSpace (output piece) = ""
    · rw [empty]
      exact blank
    · exact shielded _ (List.mem_filter.mpr ⟨List.mem_map_of_mem member, by simpa using empty⟩)
  · intro shielded text member
    obtain ⟨piece, inPieces, rfl⟩ := List.mem_map.mp (List.mem_filter.mp member).1
    exact shielded piece inPieces

/-- Every statement but its rows is free of `GO` lines and shielded. -/
def FramesClean (writes : List Write) : Prop :=
  ∀ piece ∈ pieces writes, GoFree (schemaText piece) ∧ Shielded (trimSpace (frameText piece))

/-- No dumped text value has an inner `GO` line or holds `].`. -/
def ValuesClean (d : Dumper) (databases : List Database) : Prop :=
  ∀ database ∈ databases, ∀ table ∈ dumpedTables d database, ∀ vals ∈ dumpedRows d table,
    ∀ entry ∈ table.columns.zip vals, entry.1.flag.computed = false →
      ValueClean entry.1.dataType entry.2

theorem clean_of_batchesKept {d : Dumper} {banner : String} {databases : List Database}
    (kept : BatchesKept (dump d banner databases)) :
    FramesClean (dump d banner databases) ∧ ValuesClean d databases := by
  have fine := fine_pieces d banner databases
  rw [batchesKept_iff_pieces fine] at kept
  have each := fun piece member => (piece_kept_iff (fine piece member)).2.mp (kept piece member)
  refine ⟨fun piece member => (each piece member).1, (rows_clean_iff d banner databases).mp ?_⟩
  intro parts member
  obtain ⟨piece, inPieces, inPiece⟩ :=
    (@mem_pieces_iff (.row parts) Write.noConfusion _).mpr member
  exact (each piece inPieces).2 parts inPiece

theorem batches_kept_iff (d : Dumper) (banner : String) (databases : List Database) :
    BatchesKept (dump d banner databases) ↔
      FramesClean (dump d banner databases) ∧ ValuesClean d databases := by
  refine ⟨clean_of_batchesKept, ?_⟩
  intro ⟨frames, values⟩
  have fine := fine_pieces d banner databases
  have rows := (rows_clean_iff d banner databases).mpr values
  rw [batchesKept_iff_pieces fine]
  intro piece member
  refine (piece_kept_iff (fine piece member)).2.mpr ⟨frames piece member, ?_⟩
  intro parts inPiece
  exact rows parts ((mem_pieces_iff Write.noConfusion _).mp ⟨piece, member, inPiece⟩)

/-- One table with one text value. -/
def notesDatabase (note : String) : Database :=
  { name := "shop"
    tables := [{ name := "notes", columns := [{ name := "note", dataType := "nvarchar" }],
                 rows := [[.string note]] }] }

theorem textClean_of_notesKept {note : String}
    (kept : BatchesKept (dump {} "" [notesDatabase note])) : TextClean note := by
  have clean := (clean_of_batchesKept kept).2
  exact clean _ (List.mem_singleton_self _) _ (List.mem_singleton_self _) [.string note]
    (List.mem_singleton_self _) _ (List.mem_singleton_self _) rfl

/-- A note with a line `go` cuts its batch, and one with a name in brackets is
changed by the rewrite to another database. -/
theorem notes_not_kept :
    ¬ BatchesKept (dump {} "" [notesDatabase "ready\ngo\n"]) ∧
      ¬ BatchesKept (dump {} "" [notesDatabase "see [shop].orders"]) := by
  refine ⟨fun kept => ?_, fun kept => ?_⟩
  · exact absurd ((textClean_of_notesKept kept).1 ['g', 'o'] (by decide)) (by decide)
  · exact (textClean_of_notesKept kept).2 ⟨"see [shop".toList, "orders".toList, by decide⟩

end DbBackup.Engine.Mssql
