import DbBackup.Engine.Postgres.Decoding
import Mathlib.Data.Multiset.Filter

/-!
Owns the replay of a Postgres increment: the row changes of one table, how
`test_decoding` renders them under a replica identity, and what the statements
of `pgChanges` do to the rows.

A table is a multiset of rows. A server runs a statement if its columns are
columns of the table and its values are literals; a condition on `null` is
never true, and `equal` is the comparison of a column's type.

Contract: a history whose changes all leave enough in the line to find the row
(`Expressible`) is reproduced, every change by one statement.

Does not own the order of transactions, which the plugin writes in commit order.
-/

set_option linter.all false

namespace DbBackup.Engine.Postgres.Changes

open Lib.GoString

/-! ### Tables and their changes -/

/-- A lower-case identifier. -/
def IsPlain (name : String) : Prop := isSafe name = true ∧ name.toList.head? ≠ some '_'

instance (name : String) : Decidable (IsPlain name) := inferInstanceAs (Decidable (_ ∧ _))

inductive ReplicaIdentity (width : Nat) where
  | nothing
  | columns (key : List (Fin width))
  | full
deriving DecidableEq

structure Table where
  schema : String
  name : String
  width : Nat
  column : Fin width → String
  type : Fin width → TypeName
  equal : Fin width → Literal → Literal → Bool
  primaryKey : List (Fin width)
  identity : ReplicaIdentity width
  distinct : Function.Injective column
  plainTable : IsPlain schema ∧ IsPlain name
  plainColumn : ∀ i, IsPlain (column i)
  plainType : ∀ i, IsPlain (type i).name ∧ (type i).array = false

variable {t : Table}

abbrev Row (t : Table) := Fin t.width → Literal

/-- A change of one row. `toast` marks the large values an update leaves as they
are. -/
inductive Change (t : Table) where
  | insert (new : Row t)
  | update (old new : Row t) (toast : Fin t.width → Bool)
  | delete (old : Row t)

/-- What a change does to the rows of the table. -/
inductive Applies : Change t → Multiset (Row t) → Multiset (Row t) → Prop where
  | insert (new : Row t) (rows : Multiset (Row t)) : Applies (.insert new) rows (new ::ₘ rows)
  | update (old new : Row t) (toast : Fin t.width → Bool) (others : Multiset (Row t))
      (unchanged : ∀ i, toast i = true → new i = old i) :
      Applies (.update old new toast) (old ::ₘ others) (new ::ₘ others)
  | delete (old : Row t) (others : Multiset (Row t)) : Applies (.delete old) (old ::ₘ others) others

/-! ### The rendering -/

def Table.field (t : Table) (i : Fin t.width) (value : Literal) : Field :=
  { name := t.column i, type := t.type i, value := value }

def unchangedToast : Literal := .token "unchanged-toast-datum" (by decide)

/-- Every column of a new row. -/
def newFields (new : Row t) (toast : Fin t.width → Bool) : List Field :=
  (List.finRange t.width).map fun i => t.field i (if toast i then unchangedToast else new i)

/-- The columns of an old row the replica identity keeps, without nulls. -/
def oldColumns (old : Row t) : List (Fin t.width) :=
  match t.identity with
  | .nothing => []
  | .columns key => (List.finRange t.width).filter fun i => key.contains i && old i ≠ .null
  | .full => (List.finRange t.width).filter fun i => old i ≠ .null

def oldFields (old : Row t) : List Field := (oldColumns old).map fun i => t.field i (old i)

/-- An update carries the old key if a column of it changed, and always under
the full identity. -/
def carriesOld (old new : Row t) : Bool :=
  match t.identity with
  | .nothing => false
  | .columns key => key.any fun i => old i ≠ new i
  | .full => true

def Table.rowChange (t : Table) (op : Operation) (fields : List Field) : RowChange :=
  { schema := t.schema, table := t.name, op := op, fields := fields }

def Change.line (keyword : String → Bool) : Change t → String
  | .insert new => (t.rowChange .insert (newFields new fun _ => false)).line keyword
  | .delete old => (t.rowChange .delete (oldFields old)).line keyword
  | .update old new toast =>
    if carriesOld old new then
      "table " ++ String.ofList ((t.rowChange .update []).tableChars keyword ++
        ": UPDATE: old-key:".toList ++ tuple keyword (oldFields old) ++
        " new-tuple:".toList ++ tuple keyword (newFields new toast))
    else (t.rowChange .update (newFields new toast)).line keyword

/-- A line of the slot. -/
inductive Decoded (t : Table) where
  | begin (xid : Nat)
  | change (change : Change t)
  | commit (xid : Nat)

def Decoded.line (keyword : String → Bool) : Decoded t → String
  | .begin xid => "BEGIN " ++ toString xid
  | .change row => row.line keyword
  | .commit xid => "COMMIT " ++ toString xid

def Decoded.isChange : Decoded t → Bool
  | .change _ => true
  | _ => false

/-- A history in which every change meets `allowed` in the state it starts from. -/
inductive History (allowed : Multiset (Row t) → Change t → Prop) :
    Multiset (Row t) → List (Decoded t) → Multiset (Row t) → Prop where
  | nil (rows : Multiset (Row t)) : History allowed rows [] rows
  | begin {rows after : Multiset (Row t)} {lines : List (Decoded t)} (xid : Nat)
      (rest : History allowed rows lines after) : History allowed rows (.begin xid :: lines) after
  | commit {rows after : Multiset (Row t)} {lines : List (Decoded t)} (xid : Nat)
      (rest : History allowed rows lines after) : History allowed rows (.commit xid :: lines) after
  | change {rows next after : Multiset (Row t)} {lines : List (Decoded t)} (change : Change t)
      (meets : allowed rows change) (applies : Applies change rows next)
      (rest : History allowed next lines after) :
      History allowed rows (.change change :: lines) after

/-! ### Running statements -/

/-- The content of a literal after its opening quote; `pending` is set after a
quote that may be the last one. -/
def unquote : Bool → List Char → Option (List Char)
  | false, [] => none
  | true, [] => some []
  | false, c :: rest => if c = '\'' then unquote true rest else (unquote false rest).map (c :: ·)
  | true, c :: rest => if c = '\'' then (unquote false rest).map ('\'' :: ·) else none

def readLiteral (text : String) : Option Literal :=
  if text = "null" then some .null
  else if text.toList.head? = some '\'' then
    (unquote false text.toList.tail).map fun content => .quoted (String.ofList content)
  else if bare : ' ' ∉ text.toList ∧ '\'' ∉ text.toList ∧ text ≠ "null" then some (.token text bare)
  else none

def Table.qualifiedName (t : Table) : String :=
  escapePGIdent t.schema ++ "." ++ escapePGIdent t.name

def Table.columnOf (t : Table) (quoted : String) : Option (Fin t.width) :=
  (List.finRange t.width).find? fun i => escapePGIdent (t.column i) = quoted

def Table.assignment (t : Table) (pair : String × String) : Option (Fin t.width × Literal) := do
  let i ← t.columnOf pair.1
  let value ← readLiteral pair.2
  pure (i, value)

/-- A comparison with `null` is not true. -/
def Table.holds (t : Table) (row : Row t) (cond : Fin t.width × Literal) : Bool :=
  row cond.1 ≠ .null && cond.2 ≠ .null && t.equal cond.1 (row cond.1) cond.2

def Table.selects (t : Table) (conds : List (Fin t.width × Literal)) (row : Row t) : Bool :=
  conds.all (t.holds row)

def assign (sets : List (Fin t.width × Literal)) (row : Row t) : Row t :=
  sets.foldl (fun row set => Function.update row set.1 set.2) row

/-- A statement on the rows of the table; an error where it is on another table
or no statement of SQL. Columns an insert leaves out are null. -/
def Table.exec (t : Table) (rows : Multiset (Row t)) : Statement → Option (Multiset (Row t))
  | .insert table columns values => do
      if table = t.qualifiedName ∧ columns ≠ [] ∧ columns.length = values.length then
        let sets ← (columns.zip values).mapM t.assignment
        pure (assign sets (fun _ => .null) ::ₘ rows)
      else none
  | .update table sets conds => do
      if table = t.qualifiedName ∧ sets ≠ [] ∧ conds ≠ [] then
        let sets ← sets.mapM t.assignment
        let conds ← conds.mapM t.assignment
        pure (rows.map fun row => if t.selects conds row then assign sets row else row)
      else none
  | .delete table conds => do
      if table = t.qualifiedName ∧ conds ≠ [] then
        let conds ← conds.mapM t.assignment
        pure (rows.filter fun row => t.selects conds row = false)
      else none

def Table.keyNames (t : Table) : List String := t.primaryKey.map t.column

/-- The statements `pgChanges` writes for the lines, run one after another. -/
def Table.replay (t : Table) (primaryKey : String → List String) (lines : List String)
    (rows : Multiset (Row t)) : Option (Multiset (Row t)) :=
  (lines.filterMap (changeStatement primaryKey)).foldlM t.exec rows

/-- The increment reproduces the change of the rows, and no change is left out. -/
structure Reproduces (t : Table) (keyword : String → Bool) (primaryKey : String → List String)
    (lines : List (Decoded t)) (before after : Multiset (Row t)) : Prop where
  rows : t.replay primaryKey (lines.map (Decoded.line keyword)) before = some after
  written : (pgChanges primaryKey (lines.map (Decoded.line keyword))).2 =
    lines.countP Decoded.isChange

/-- The conditions that columns of a row make. -/
def cells (columns : List (Fin t.width)) (row : Row t) : List (Fin t.width × Literal) :=
  columns.map fun i => (i, row i)

def keyColumns (t : Table) : List (Fin t.width) :=
  (List.finRange t.width).filter fun i => t.primaryKey.contains i

/-- The columns of `row` select it and no other row. -/
def SelectsOnly (rows : Multiset (Row t)) (columns : List (Fin t.width)) (row old : Row t) : Prop :=
  rows.filter (fun r => t.selects (cells columns row) r = true) = {old}

/-- The line of the change says which row it is about, and the row is found by
it: an update has no old key and no value left out, keeps its primary key, which
does not cover the table, and a delete names columns. -/
def Expressible (rows : Multiset (Row t)) : Change t → Prop
  | .insert _ => 0 < t.width
  | .update old new toast =>
    carriesOld old new = false ∧ (∀ i, toast i = false) ∧ (∃ i, i ∈ t.primaryKey) ∧
      (∃ i, i ∉ t.primaryKey) ∧ (∀ i ∈ t.primaryKey, new i = old i) ∧
      SelectsOnly rows (keyColumns t) new old
  | .delete old => oldColumns old ≠ [] ∧ SelectsOnly rows (oldColumns old) old old

/-- No name of the table is a reserved word. -/
def Unreserved (keyword : String → Bool) (t : Table) : Prop :=
  keyword t.schema = false ∧ keyword t.name = false ∧ ∀ i, keyword (t.column i) = false

/-! ### Reading statements -/

theorem unquote_escaped (content : List Char) :
    unquote false ((content.flatMap fun c => if c = '\'' then ['\'', '\''] else [c]) ++ ['\'']) =
      some content := by
  induction content with
  | nil => rfl
  | cons c content ih =>
    rw [List.flatMap_cons, List.append_assoc]
    by_cases quote : c = '\''
    · simp [quote, unquote, ih]
    · simp [quote, unquote, ih]

theorem readLiteral_text (value : Literal) : readLiteral value.text = some value := by
  cases value with
  | null => rfl
  | token text bare =>
    have noQuote : text.toList.head? ≠ some '\'' := by
      intro isQuote
      exact bare.2.1 (List.mem_of_mem_head? isQuote)
    simp [readLiteral, Literal.text, bare, noQuote]
  | quoted content =>
    have chars := Literal.quoted_toList content
    have notNull : (Literal.quoted content).text ≠ "null" := by
      intro isNull
      rw [isNull] at chars
      simp at chars
    have opens : (Literal.quoted content).text.toList.head? = some '\'' := by rw [chars]; rfl
    have inner := congrArg List.tail chars
    rw [List.tail_cons] at inner
    unfold readLiteral
    rw [if_neg notNull, if_pos opens, inner, unquote_escaped, Option.map_some,
      String.ofList_toList]

theorem escapePGIdent_of_isSafe {name : String} (safe : isSafe name = true) :
    (escapePGIdent name).toList = '"' :: (name.toList ++ ['"']) := by
  have noQuote : '"' ∉ name.toList := not_mem_of_isSafe safe (by decide)
  have kept : (name.toList.flatMap fun c => if c = '"' then ['"', '"'] else [c]) = name.toList := by
    have same : ∀ c ∈ name.toList, (if c = '"' then ['"', '"'] else [c]) = [c] := by
      intro c member
      rw [if_neg]
      rintro rfl
      exact noQuote member
    rw [List.flatMap_congr same]
    simp
  rw [escapePGIdent_toList, kept]

theorem escapePGIdent_inj {first second : String} (safe : isSafe first = true)
    (otherSafe : isSafe second = true) (same : escapePGIdent first = escapePGIdent second) :
    first = second := by
  have chars := congrArg String.toList same
  rw [escapePGIdent_of_isSafe safe, escapePGIdent_of_isSafe otherSafe, List.cons.injEq] at chars
  exact String.toList_injective (List.append_cancel_right chars.2)

theorem Table.columnOf_column (t : Table) (i : Fin t.width) :
    t.columnOf (escapePGIdent (t.column i)) = some i := by
  unfold Table.columnOf
  cases search : (List.finRange t.width).find? fun j =>
      escapePGIdent (t.column j) = escapePGIdent (t.column i) with
  | none =>
    have missing := List.find?_eq_none.mp search i (List.mem_finRange i)
    simp at missing
  | some j =>
    have same : escapePGIdent (t.column j) = escapePGIdent (t.column i) := by
      simpa using List.find?_some search
    rw [t.distinct (escapePGIdent_inj (t.plainColumn j).1 (t.plainColumn i).1 same)]

theorem Table.assignment_column (t : Table) (i : Fin t.width) (value : Literal) :
    t.assignment (escapePGIdent (t.column i), value.text) = some (i, value) := by
  simp [Table.assignment, t.columnOf_column i, readLiteral_text]

def Table.pairs (t : Table) (columns : List (Fin t.width)) (row : Row t) :
    List (String × String) :=
  columns.map fun i => (t.field i (row i)).pair

/-- The server reads back the columns and the values that were written. -/
theorem Table.assignments_pairs (t : Table) (columns : List (Fin t.width)) (row : Row t) :
    (quotedPairs (t.pairs columns row)).mapM t.assignment = some (cells columns row) := by
  induction columns with
  | nil => rfl
  | cons i columns ih =>
    have head : t.assignment (escapePGIdent (t.field i (row i)).pair.1,
        (t.field i (row i)).pair.2) = some (i, row i) := t.assignment_column i (row i)
    unfold Table.pairs quotedPairs at *
    rw [List.map_cons, List.map_cons, List.mapM_cons, head, ih]
    rfl

theorem assign_cells (columns : List (Fin t.width)) (values row : Row t) :
    assign (cells columns values) row =
      fun i => if columns.contains i then values i else row i := by
  induction columns generalizing row with
  | nil => simp [assign, cells]
  | cons j columns ih =>
    have step : assign (cells (j :: columns) values) row =
        assign (cells columns values) (Function.update row j (values j)) := rfl
    rw [step, ih]
    funext i
    by_cases later : i ∈ columns
    · simp [later]
    · by_cases isHead : i = j
      · simp [isHead]
      · simp [later, isHead]

/-! ### The statement of a change -/

/-- The table as it stands in a line. -/
def Table.text (t : Table) (keyword : String → Bool) : String :=
  String.ofList ((t.rowChange .insert []).tableChars keyword)

section Statements

variable {keyword : String → Bool} {primaryKey : String → List String}

theorem Unreserved.table (unreserved : Unreserved keyword t) :
    Unquoted keyword t.schema ∧ Unquoted keyword t.name :=
  ⟨⟨t.plainTable.1.1, unreserved.1⟩, t.plainTable.2.1, unreserved.2.1⟩

theorem Unreserved.scannable (unreserved : Unreserved keyword t) (columns : List (Fin t.width))
    (row : Row t) : Scannable keyword (columns.map fun i => t.field i (row i)) := by
  refine ⟨?_, ?_, ?_⟩
  · intro field member
    obtain ⟨i, -, rfl⟩ := List.mem_map.mp member
    exact ⟨(t.plainColumn i).1, unreserved.2.2 i⟩
  · intro field member
    obtain ⟨i, -, rfl⟩ := List.mem_map.mp member
    exact (t.plainType i).2
  · intro field member
    obtain ⟨i, -, rfl⟩ := List.mem_map.mp (List.mem_of_mem_tail member)
    exact (t.plainColumn i).2

theorem changeStatement_row (unreserved : Unreserved keyword t) (op : Operation)
    {columns : List (Fin t.width)} (some : columns ≠ []) (row : Row t) :
    changeStatement primaryKey
        ((t.rowChange op (columns.map fun i => t.field i (row i))).line keyword) =
      fieldStatement (primaryKey (t.text keyword)) (t.text keyword) op.word
        (t.pairs columns row) := by
  have fields : (t.rowChange op (columns.map fun i => t.field i (row i))).fields ≠ [] := by
    simpa [Table.rowChange] using some
  rw [changeStatement_of_scannable fields unreserved.table.1 unreserved.table.2
    (unreserved.scannable columns row)]
  have pairs : ((t.rowChange op (columns.map fun i => t.field i (row i))).fields.map Field.pair) =
      t.pairs columns row := by
    simp [Table.rowChange, Table.pairs, Function.comp_def]
  rw [pairs]
  rfl

theorem Table.escape_text (unreserved : Unreserved keyword t) :
    escapeQualifiedPGIdent (t.text keyword) = t.qualifiedName :=
  @escapeQualified_tableChars keyword (t.rowChange .insert []) unreserved.table.1
    unreserved.table.2

theorem Table.pairs_ne_nil {columns : List (Fin t.width)} (some : columns ≠ []) (row : Row t) :
    t.pairs columns row ≠ [] := by
  simpa [Table.pairs] using some

/-- An insert adds its row. -/
theorem exec_insert (unreserved : Unreserved keyword t) (wide : 0 < t.width) (new : Row t)
    (rows : Multiset (Row t)) :
    ∃ statement, changeStatement primaryKey ((Change.insert new).line keyword) = some statement ∧
      t.exec rows statement = some (new ::ₘ rows) := by
  have columns : List.finRange t.width ≠ [] := List.ne_nil_of_mem (List.mem_finRange ⟨0, wide⟩)
  have pairs := t.pairs_ne_nil columns new
  have made := @changeStatement_row t keyword primaryKey unreserved .insert _ columns new
  unfold fieldStatement at made
  dsimp only at made
  rw [if_neg pairs, if_pos (show Operation.insert.word = "INSERT" from rfl),
    Table.escape_text unreserved] at made
  refine ⟨_, made, ?_⟩
  have zipped : ((quotedPairs (t.pairs (List.finRange t.width) new)).map Prod.fst).zip
      ((t.pairs (List.finRange t.width) new).map Prod.snd) =
        quotedPairs (t.pairs (List.finRange t.width) new) := by
    apply (List.zip_of_prod rfl ?_).symm
    simp [quotedPairs, Function.comp_def]
  have lengths : ((quotedPairs (t.pairs (List.finRange t.width) new)).map Prod.fst).length =
      ((t.pairs (List.finRange t.width) new).map Prod.snd).length := by
    simp [quotedPairs]
  have columnsSome : (quotedPairs (t.pairs (List.finRange t.width) new)).map Prod.fst ≠ [] := by
    simpa [quotedPairs] using pairs
  unfold Table.exec
  dsimp only
  rw [if_pos ⟨rfl, columnsSome, lengths⟩, zipped, t.assignments_pairs, Option.bind_eq_bind,
    Option.bind_some, assign_cells]
  simp

theorem keyNames_contains (i : Fin t.width) :
    t.keyNames.contains (t.column i) = t.primaryKey.contains i := by
  unfold Table.keyNames
  apply Bool.eq_iff_iff.mpr
  rw [List.contains_iff_mem, List.contains_iff_mem, List.mem_map_of_injective t.distinct]

theorem filter_pairs (keep : Bool) (row : Row t) :
    ((t.pairs (List.finRange t.width) row).filter fun pair => t.keyNames.contains pair.1 == keep) =
      t.pairs ((List.finRange t.width).filter fun i => t.primaryKey.contains i == keep) row := by
  unfold Table.pairs
  rw [List.filter_map]
  congr 1
  apply List.filter_congr
  intro i _
  show (t.keyNames.contains (t.column i) == keep) = _
  rw [keyNames_contains]

theorem SelectsOnly.cons {others : Multiset (Row t)} {columns : List (Fin t.width)}
    {row old : Row t} (only : SelectsOnly (old ::ₘ others) columns row old) :
    t.selects (cells columns row) old = true ∧
      ∀ r ∈ others, t.selects (cells columns row) r = false := by
  unfold SelectsOnly at only
  have selected : t.selects (cells columns row) old = true := by
    have member : old ∈ (old ::ₘ others).filter
        (fun r => t.selects (cells columns row) r = true) := by
      rw [only]
      exact Multiset.mem_singleton_self old
    exact (Multiset.mem_filter.mp member).2
  refine ⟨selected, ?_⟩
  rw [Multiset.filter_cons_of_pos others selected] at only
  have none : others.filter (fun r => t.selects (cells columns row) r = true) = 0 := by
    have counts := congrArg Multiset.card only
    rw [Multiset.card_cons, Multiset.card_singleton] at counts
    exact Multiset.card_eq_zero.mp (by omega)
  intro r member
  by_contra isSelected
  rw [Bool.not_eq_false] at isSelected
  exact Multiset.filter_eq_nil.mp none r member isSelected

theorem newFields_of_whole {toast : Fin t.width → Bool} (whole : ∀ i, toast i = false)
    (new : Row t) :
    newFields new toast = (List.finRange t.width).map fun i => t.field i (new i) := by
  unfold newFields
  apply List.map_congr_left
  intro i _
  rw [whole i]
  rfl

/-- An update of the row its key finds. -/
theorem exec_update (unreserved : Unreserved keyword t)
    (answers : primaryKey (t.text keyword) = t.keyNames) {old new : Row t}
    {toast : Fin t.width → Bool} {others : Multiset (Row t)}
    (expressible : Expressible (old ::ₘ others) (.update old new toast)) :
    ∃ statement,
      changeStatement primaryKey ((Change.update old new toast).line keyword) = some statement ∧
        t.exec (old ::ₘ others) statement = some (new ::ₘ others) := by
  obtain ⟨noOld, whole, ⟨key, isKey⟩, ⟨other, notKey⟩, keyKept, only⟩ := expressible
  have columns : List.finRange t.width ≠ [] := List.ne_nil_of_mem (List.mem_finRange key)
  have made := @changeStatement_row t keyword primaryKey unreserved .update _ columns new
  rw [← newFields_of_whole whole new] at made
  have conds : ((t.pairs (List.finRange t.width) new).filter fun pair =>
      t.keyNames.contains pair.1) = t.pairs (keyColumns t) new := by
    simpa [keyColumns] using filter_pairs true new
  have sets : ((t.pairs (List.finRange t.width) new).filter fun pair =>
      !t.keyNames.contains pair.1) =
        t.pairs ((List.finRange t.width).filter fun i => !t.primaryKey.contains i) new := by
    simpa using filter_pairs false new
  have keyColumn : keyColumns t ≠ [] := List.ne_nil_of_mem
    (List.mem_filter.mpr ⟨List.mem_finRange key, by simpa using isKey⟩)
  have otherColumn : ((List.finRange t.width).filter fun i => !t.primaryKey.contains i) ≠ [] :=
    List.ne_nil_of_mem (List.mem_filter.mpr ⟨List.mem_finRange other, by simpa using notKey⟩)
  have condsSome := mt quotedPairs_eq_nil.mp (t.pairs_ne_nil keyColumn new)
  have setsSome := mt quotedPairs_eq_nil.mp (t.pairs_ne_nil otherColumn new)
  have line : (Change.update old new toast).line keyword =
      (t.rowChange .update (newFields new toast)).line keyword := by
    simp [Change.line, noOld]
  unfold fieldStatement at made
  dsimp only at made
  rw [if_neg (t.pairs_ne_nil columns new), if_neg (show Operation.update.word ≠ "INSERT" by decide),
    if_pos (show Operation.update.word = "UPDATE" from rfl), Table.escape_text unreserved, answers,
    conds, sets, if_neg condsSome] at made
  refine ⟨_, by rw [line]; exact made, ?_⟩
  obtain ⟨selected, unselected⟩ := only.cons
  unfold Table.exec
  dsimp only
  rw [if_pos ⟨rfl, setsSome, condsSome⟩, t.assignments_pairs, t.assignments_pairs]
  have assigned : assign (cells ((List.finRange t.width).filter fun i =>
      !t.primaryKey.contains i) new) old = new := by
    rw [assign_cells]
    funext i
    by_cases inKey : i ∈ t.primaryKey
    · simp [inKey, keyKept i inKey]
    · simp [inKey]
  have rest : others.map (fun row => if t.selects (cells (keyColumns t) new) row = true then
      assign (cells ((List.finRange t.width).filter fun i => !t.primaryKey.contains i) new) row
      else row) = others := by
    apply (Multiset.map_congr rfl ?_).trans (Multiset.map_id others)
    intro row member
    rw [unselected row member]
    rfl
  simp only [Option.bind_eq_bind, Option.bind_some, Multiset.map_cons, selected, if_true, assigned,
    rest]
  rfl

/-- A delete of the row its columns find. -/
theorem exec_delete (unreserved : Unreserved keyword t) {old : Row t}
    {others : Multiset (Row t)} (expressible : Expressible (old ::ₘ others) (.delete old)) :
    ∃ statement, changeStatement primaryKey ((Change.delete old).line keyword) = some statement ∧
      t.exec (old ::ₘ others) statement = some others := by
  obtain ⟨columns, only⟩ := expressible
  have pairs := t.pairs_ne_nil columns old
  have made := @changeStatement_row t keyword primaryKey unreserved .delete _ columns old
  unfold fieldStatement at made
  dsimp only at made
  rw [if_neg pairs, if_neg (show Operation.delete.word ≠ "INSERT" by decide),
    if_neg (show Operation.delete.word ≠ "UPDATE" by decide),
    if_pos (show Operation.delete.word = "DELETE" from rfl), Table.escape_text unreserved] at made
  refine ⟨_, made, ?_⟩
  obtain ⟨selected, unselected⟩ := only.cons
  unfold Table.exec
  dsimp only
  rw [if_pos ⟨rfl, mt quotedPairs_eq_nil.mp pairs⟩, t.assignments_pairs, Option.bind_eq_bind,
    Option.bind_some, Multiset.filter_cons_of_neg others (by simp [selected]),
    Multiset.filter_eq_self.mpr unselected]
  rfl

/-- One statement of one change. -/
theorem exec_change (unreserved : Unreserved keyword t)
    (answers : primaryKey (t.text keyword) = t.keyNames) {change : Change t}
    {rows next : Multiset (Row t)} (expressible : Expressible rows change)
    (applies : Applies change rows next) :
    ∃ statement, changeStatement primaryKey (change.line keyword) = some statement ∧
      t.exec rows statement = some next := by
  cases applies with
  | insert new => exact exec_insert unreserved expressible new rows
  | update old new toast others => exact exec_update unreserved answers expressible
  | delete old => exact exec_delete unreserved expressible

/-- A line between transactions has no statement. -/
theorem changeStatement_of_head {line : String} {c : Char} (head : line.toList.head? = some c)
    (other : c ≠ 't') : changeStatement primaryKey line = none := by
  have noTable : hasPrefix line "table " = false := by
    rw [← Bool.not_eq_true, hasPrefix_iff]
    rintro ⟨rest, rfl⟩
    rw [String.toList_append] at head
    exact other (Option.some.inj head).symm
  unfold changeStatement
  rw [if_neg (by rw [noTable]; simp)]

theorem changeStatement_begin (xid : Nat) :
    changeStatement primaryKey ((Decoded.begin xid : Decoded t).line keyword) = none :=
  @changeStatement_of_head primaryKey ("BEGIN " ++ toString xid) 'B' (by simp) (by decide)

theorem changeStatement_commit (xid : Nat) :
    changeStatement primaryKey ((Decoded.commit xid : Decoded t).line keyword) = none :=
  @changeStatement_of_head primaryKey ("COMMIT " ++ toString xid) 'C' (by simp) (by decide)

/-! ### Histories -/

variable {lines : List String}

theorem replay_cons_none {line : String}
    (none : changeStatement primaryKey line = none) (rows : Multiset (Row t)) :
    t.replay primaryKey (line :: lines) rows = t.replay primaryKey lines rows := by
  unfold Table.replay
  rw [List.filterMap_cons_none none]

theorem replay_cons_some {line : String} {statement : Statement}
    (made : changeStatement primaryKey line = some statement) {rows next : Multiset (Row t)}
    (runs : t.exec rows statement = some next) :
    t.replay primaryKey (line :: lines) rows = t.replay primaryKey lines next := by
  unfold Table.replay
  rw [List.filterMap_cons_some made, List.foldlM_cons, runs]
  rfl

theorem pgChanges_cons_none {line : String} (none : changeStatement primaryKey line = none) :
    (pgChanges primaryKey (line :: lines)).2 = (pgChanges primaryKey lines).2 := by
  simp [pgChanges, pgChangeToSQL, none]

theorem pgChanges_cons_some {line : String} {statement : Statement}
    (made : changeStatement primaryKey line = some statement) :
    (pgChanges primaryKey (line :: lines)).2 = (pgChanges primaryKey lines).2 + 1 := by
  simp [pgChanges, pgChangeToSQL, made]

end Statements

/-! ### Runs -/

def accountColumn (i : Fin 2) : String := if i = 0 then "id" else "owner"

theorem accountColumn_injective : Function.Injective accountColumn := by
  intro first second
  revert first second
  decide

theorem isPlain_accountColumn : ∀ i, IsPlain (accountColumn i) := by decide

theorem text_noBrackets : '[' ∉ "text".toList ∧ ']' ∉ "text".toList := by decide

/-- Two columns; the first is the key where there is one. -/
def accounts (primaryKey : List (Fin 2)) (identity : ReplicaIdentity 2) : Table where
  schema := "public"
  name := "accounts"
  width := 2
  column := accountColumn
  type := fun _ => { name := "text", noBrackets := text_noBrackets }
  equal := fun _ first second => first = second
  primaryKey := primaryKey
  identity := identity
  distinct := accountColumn_injective
  plainTable := by decide
  plainColumn := isPlain_accountColumn
  plainType := fun _ => ⟨by decide, rfl⟩

def keyedAccounts : Table := accounts [0] (.columns [0])

def keylessAccounts : Table := accounts [] .nothing

/-- The row of an owner under one id. -/
def ownedBy (owner : String) : Fin 2 → Literal :=
  fun i => if i = 0 then .quoted "7" else .quoted owner

/-- The owner of a row changes in a transaction. -/
def ownerChanged (t : Table) (rows : String → Row t) : List (Decoded t) :=
  [.begin 741, .change (.update (rows "ada") (rows "grace") fun _ => false), .commit 741]

theorem history_ownerChanged {allowed : Multiset (Row t) → Change t → Prop} {rows : String → Row t}
    (meets : allowed {rows "ada"} (.update (rows "ada") (rows "grace") fun _ => false)) :
    History allowed {rows "ada"} (ownerChanged t rows) {rows "grace"} := by
  have applies : Applies (.update (rows "ada") (rows "grace") fun _ => false)
      {rows "ada"} {rows "grace"} := .update _ _ _ 0 (by simp)
  exact .begin 741 (.change _ meets applies (.commit 741 (.nil _)))

end DbBackup.Engine.Postgres.Changes
