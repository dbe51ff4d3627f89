import DbBackup.Lib.GoString

/-!
Owns `streamRows` of `internal/database/engine/mysql/mysql.go` with `escapeString`,
`escapeBlob`, `isBlobType` and `quoteMySQLIdent`: the text of the `INSERT` statements
of a table.

Contract: whatever the size limit, the text is a list of statements, each with at least
one row, that hold the rows in order (`streamRows_eq`).

A Go string is its bytes. Here a byte is a character below 256, so the length of a
text is what `sb.Len()` counts.
-/

set_option linter.all false

namespace DbBackup.Engine.Mysql.Rows

open Lib.GoString

/-! ### Names and values -/

def byteText (bytes : List UInt8) : String :=
  String.ofList (bytes.map fun byte => Char.ofNat byte.toNat)

/-- A column with the type name the driver reports. -/
structure Column where
  name : List UInt8
  databaseTypeName : String

/-- What `rows.Scan` puts into an `any`. `float64` comes as `%v` prints it, and `string`
stands for every other value that is printed and quoted. -/
inductive Value where
  | nil
  | bytes (bytes : List UInt8)
  | int64 (n : Int)
  | float64 (printed : String)
  | bool (b : Bool)
  | string (bytes : List UInt8)

def quoteMySQLIdent (s : String) : String :=
  "`" ++ replaceAll s "`" "``" ++ "`"

def isBlobType (t : String) : Bool :=
  ["blob", "tinyblob", "mediumblob", "longblob", "binary", "varbinary", "geometry"].contains
    (toLower t)

def escapeString (s : String) : String :=
  let s := replaceAll s "\\" "\\\\"
  let s := replaceAll s "\x00" "\\0"
  let s := replaceAll s "'" "\\'"
  let s := replaceAll s "\"" "\\\""
  let s := replaceAll s "\n" "\\n"
  replaceAll s "\r" "\\r"

def escapeBlob (s : String) : String :=
  replaceAll (escapeString s) "\x1a" "\\Z"

def hexByte (byte : UInt8) : List Char :=
  [Nat.digitChar (byte.toNat / 16), Nat.digitChar (byte.toNat % 16)]

/-- `0x%x`. -/
def hexLiteral (bytes : List UInt8) : String :=
  String.ofList ('0' :: 'x' :: bytes.flatMap hexByte)

def literal (rawBlobs : Bool) (column : Column) : Value → String
  | .nil => "NULL"
  | .bytes bytes =>
    if isBlobType column.databaseTypeName && !rawBlobs then hexLiteral bytes
    else if isBlobType column.databaseTypeName then "'" ++ escapeBlob (byteText bytes) ++ "'"
    else "'" ++ escapeString (byteText bytes) ++ "'"
  | .int64 n => toString n
  | .float64 printed => printed
  | .bool b => if b then "1" else "0"
  | .string bytes => "'" ++ escapeString (byteText bytes) ++ "'"

/-! ### Statements -/

def commaJoin (parts : List String) : List Char :=
  [',', ' '].intercalate (parts.map String.toList)

def header (table : List UInt8) (columns : List Column) : List Char :=
  "INSERT INTO ".toList ++ (quoteMySQLIdent (byteText table)).toList ++ [' ', '('] ++
    commaJoin (columns.map fun column => quoteMySQLIdent (byteText column.name)) ++
    ") VALUES\n".toList

/-- The values of a row go with the columns by position. -/
def literals (rawBlobs : Bool) (columns : List Column) (row : List Value) : List String :=
  List.zipWith (literal rawBlobs) columns row

def rowText (rawBlobs : Bool) (columns : List Column) (row : List Value) : List Char :=
  '(' :: commaJoin (literals rawBlobs columns row) ++ [')']

structure Writer where
  out : List Char := []
  sb : List Char := []
  rowsInBatch : Nat := 0

def Writer.flush (w : Writer) : Writer :=
  { out := w.out ++ (w.sb ++ [';', '\n']) }

section Loop

variable (rawBlobs : Bool) (table : List UInt8) (columns : List Column) (batchBytes : Int)

def Writer.addRow (w : Writer) (row : List Value) : Writer :=
  let start := if w.rowsInBatch = 0 then header table columns else [',', '\n']
  let sb := w.sb ++ (start ++ rowText rawBlobs columns row)
  let w := { w with sb, rowsInBatch := w.rowsInBatch + 1 }
  if 0 < batchBytes ∧ batchBytes ≤ sb.length then w.flush else w

/-- Without columns there is no query and nothing is written. -/
def streamRows (rows : List (List Value)) : List Char :=
  if columns = [] then []
  else
    let w := rows.foldl (Writer.addRow rawBlobs table columns batchBytes) {}
    if 0 < w.rowsInBatch then w.flush.out else w.out

end Loop

/-! ### The statements written -/

/-- A statement without its delimiter. -/
def statement (rawBlobs : Bool) (table : List UInt8) (columns : List Column)
    (rows : List (List Value)) : List Char :=
  header table columns ++ [',', '\n'].intercalate (rows.map (rowText rawBlobs columns))

variable {rawBlobs : Bool} {table : List UInt8} {columns : List Column}

variable {rows : List (List Value)}

theorem statement_concat (nonempty : rows ≠ []) (row : List Value) :
    statement rawBlobs table columns (rows ++ [row]) =
      statement rawBlobs table columns rows ++ ([',', '\n'] ++ rowText rawBlobs columns row) := by
  have joined : ∀ parts : List (List Char), parts ≠ [] → ∀ last : List Char,
      [',', '\n'].intercalate (parts ++ [last]) =
        [',', '\n'].intercalate parts ++ ([',', '\n'] ++ last) := by
    intro parts
    induction parts with
    | nil => exact fun isNil => absurd rfl isNil
    | cons part rest ih =>
      intro _ last
      cases rest with
      | nil => simp [List.intercalate]
      | cons second others =>
        rw [List.cons_append, List.cons_append, List.intercalate_cons_cons,
          ← List.cons_append, ih (List.cons_ne_nil _ _),
          List.intercalate_cons_cons, List.append_assoc, List.append_assoc, List.append_assoc]
  rw [statement, List.map_append, List.map_singleton, joined _ (by simpa using nonempty), statement,
    List.append_assoc]

/-- `groups` are written, `cur` is the batch at hand. -/
structure Written (rawBlobs : Bool) (table : List UInt8) (columns : List Column)
    (rows : List (List Value)) (w : Writer) (groups : List (List (List Value)))
    (cur : List (List Value)) : Prop where
  rows_eq : groups.flatten ++ cur = rows
  groups_ne : ∀ group ∈ groups, group ≠ []
  out_eq : w.out = groups.flatMap fun group =>
    statement rawBlobs table columns group ++ [';', '\n']
  count_eq : w.rowsInBatch = cur.length
  sb_eq : w.sb = if cur = [] then [] else statement rawBlobs table columns cur

theorem Written.flush {w : Writer} {groups : List (List (List Value))} {cur : List (List Value)}
    (written : Written rawBlobs table columns rows w groups cur) (nonempty : cur ≠ []) :
    Written rawBlobs table columns rows w.flush (groups ++ [cur]) [] where
  rows_eq := by
    rw [List.flatten_append, List.flatten_singleton, List.append_nil]
    exact written.rows_eq
  groups_ne := by
    intro group member
    rcases List.mem_append.mp member with inGroups | isCur
    · exact written.groups_ne group inGroups
    · exact List.mem_singleton.mp isCur ▸ nonempty
  out_eq := by
    rw [Writer.flush, written.out_eq, written.sb_eq, if_neg nonempty, List.flatMap_append,
      List.flatMap_singleton]
  count_eq := rfl
  sb_eq := rfl

theorem Written.addRow {w : Writer} {groups : List (List (List Value))} {cur : List (List Value)}
    (written : Written rawBlobs table columns rows w groups cur) (batchBytes : Int)
    (row : List Value) :
    ∃ groups' cur', Written rawBlobs table columns (rows ++ [row])
      (w.addRow rawBlobs table columns batchBytes row) groups' cur' := by
  have longer : w.sb ++ ((if w.rowsInBatch = 0 then header table columns else [',', '\n']) ++
      rowText rawBlobs columns row) = statement rawBlobs table columns (cur ++ [row]) := by
    rw [written.count_eq, written.sb_eq]
    by_cases first : cur = []
    · subst first
      simp [statement, List.intercalate]
    · rw [if_neg first, if_neg (by simpa using first), statement_concat first]
  have added : Written rawBlobs table columns (rows ++ [row])
      { w with sb := statement rawBlobs table columns (cur ++ [row]),
               rowsInBatch := w.rowsInBatch + 1 } groups (cur ++ [row]) := by
    refine ⟨?_, written.groups_ne, written.out_eq, ?_, ?_⟩
    · rw [← written.rows_eq, List.append_assoc]
    · rw [List.length_append, written.count_eq, List.length_singleton]
    · rw [if_neg (by simp)]
  rw [Writer.addRow]
  simp only [longer]
  split
  · exact ⟨_, _, added.flush (by simp)⟩
  · exact ⟨_, _, added⟩

theorem written_foldl (batchBytes : Int) (rows : List (List Value)) :
    ∀ {before : List (List Value)} {w : Writer} {groups : List (List (List Value))}
      {cur : List (List Value)}, Written rawBlobs table columns before w groups cur →
      ∃ groups' cur', Written rawBlobs table columns (before ++ rows)
        (rows.foldl (Writer.addRow rawBlobs table columns batchBytes) w) groups' cur' := by
  induction rows with
  | nil =>
    intro before w groups cur written
    rw [List.append_nil]
    exact ⟨groups, cur, written⟩
  | cons row rest ih =>
    intro before w groups cur written
    obtain ⟨groups', cur', next⟩ := written.addRow batchBytes row
    have after := ih next
    rw [List.append_assoc, List.singleton_append] at after
    exact after

/-- Statements with at least one row each that hold the rows in order. -/
theorem streamRows_eq (rawBlobs : Bool) (table : List UInt8) {columns : List Column}
    (selects : columns ≠ []) (batchBytes : Int) (rows : List (List Value)) :
    ∃ groups : List (List (List Value)), groups.flatten = rows ∧
      (∀ group ∈ groups, group ≠ []) ∧
      streamRows rawBlobs table columns batchBytes rows =
        groups.flatMap fun group => statement rawBlobs table columns group ++ [';', '\n'] := by
  have fresh : Written rawBlobs table columns [] {} [] [] :=
    ⟨rfl, fun _ member => absurd member List.not_mem_nil, rfl, rfl, rfl⟩
  obtain ⟨groups, cur, written⟩ := written_foldl batchBytes rows fresh
  rw [List.nil_append] at written
  rw [streamRows, if_neg selects]
  by_cases pending : cur = []
  · subst pending
    have nothingLeft : ¬ 0 < (rows.foldl (Writer.addRow rawBlobs table columns batchBytes)
        {}).rowsInBatch := by
      rw [written.count_eq]
      exact Nat.lt_irrefl 0
    simp only [if_neg nothingLeft]
    refine ⟨groups, ?_, written.groups_ne, written.out_eq⟩
    rw [← written.rows_eq, List.append_nil]
  · have left : 0 < (rows.foldl (Writer.addRow rawBlobs table columns batchBytes)
        {}).rowsInBatch := by
      rw [written.count_eq]
      exact List.length_pos_iff.mpr pending
    have flushed := written.flush pending
    simp only [if_pos left]
    refine ⟨groups ++ [cur], ?_, flushed.groups_ne, flushed.out_eq⟩
    rw [← flushed.rows_eq, List.append_nil]

end DbBackup.Engine.Mysql.Rows
