import DbBackup.Engine.Postgres.Changes
import DbBackup.Lib.Delimited

/-!
Owns the rendering of a row change by the `test_decoding` plugin, and what the
field scanner and `pgChangeToSQL` make of it.

The plugin writes identifiers as `quote_identifier` does, which leaves a safe
name that is no reserved word as it is; a type is written by `format_type`, an
array type with brackets at its end; a value is a bare token, a quoted literal
or `null`.

Contract: a change is read without loss exactly if no identifier of it had to be
quoted, no type is an array type, every column but the first begins with a
letter, and, for an update, the columns are partly in the primary key
(`Lossless`).

Does not own updates that carry an old key (`Engine.Postgres.Replay`).
-/

set_option linter.all false

namespace DbBackup.Engine.Postgres.Changes

open Lib.Delimited Lib.GoString

/-! ### The rendering -/

/-- `format_type`: the name with its modifiers, and brackets for an array. -/
structure TypeName where
  name : String
  array : Bool := false
  noBrackets : '[' ∉ name.toList ∧ ']' ∉ name.toList
deriving DecidableEq

def TypeName.text (type : TypeName) : String := if type.array then type.name ++ "[]" else type.name

inductive Literal where
  | token (text : String) (bare : ' ' ∉ text.toList ∧ '\'' ∉ text.toList ∧ text ≠ "null")
  | quoted (content : String)
  | null
deriving DecidableEq

def Literal.text : Literal → String
  | .token text _ => text
  | .quoted content => "'" ++ replaceAll content "'" "''" ++ "'"
  | .null => "null"

structure Field where
  name : String
  type : TypeName
  value : Literal
deriving DecidableEq

inductive Operation where
  | insert
  | update
  | delete
deriving DecidableEq

def Operation.word : Operation → String
  | .insert => "INSERT"
  | .update => "UPDATE"
  | .delete => "DELETE"

structure RowChange where
  schema : String
  table : String
  op : Operation
  fields : List Field

def isLower (c : Char) : Bool := 'a' ≤ c && c ≤ 'z'

def isSafe (name : String) : Bool :=
  match name.toList with
  | [] => false
  | c :: rest => (isLower c || c = '_') &&
      rest.all fun c => isLower c || ('0' ≤ c && c ≤ '9') || c = '_'

section Rendering

variable (keyword : String → Bool)

def quoteIdentifier (name : String) : String :=
  if isSafe name && !keyword name then name else escapePGIdent name

def Field.chars (field : Field) : List Char :=
  (quoteIdentifier keyword field.name).toList ++
    '[' :: (field.type.text.toList ++ ']' :: ':' :: field.value.text.toList)

/-- `tuple_to_stringinfo`. -/
def tuple (fields : List Field) : List Char :=
  fields.flatMap fun field => ' ' :: field.chars keyword

def RowChange.tableChars (change : RowChange) : List Char :=
  (quoteIdentifier keyword change.schema).toList ++
    '.' :: (quoteIdentifier keyword change.table).toList

def RowChange.columns (change : RowChange) : List Char :=
  if change.fields = [] ∧ change.op = .delete then " (no-tuple-data)".toList
  else tuple keyword change.fields

/-- The line of a change. -/
def RowChange.line (change : RowChange) : String :=
  "table " ++ String.ofList (change.tableChars keyword ++ ':' :: ' ' ::
    (change.op.word.toList ++ ':' :: change.columns keyword))

end Rendering

/-! ### Lossless reading -/

def Field.pair (field : Field) : String × String := (field.name, field.value.text)

/-- The statement a change calls for: on its table, with its columns and its
values. An update needs columns to find the row by and columns to set. -/
def RowChange.intended (change : RowChange) (primaryKey : List String) : Option Statement :=
  let table := escapePGIdent change.schema ++ "." ++ escapePGIdent change.table
  let pairs := change.fields.map Field.pair
  match change.op with
  | .insert =>
    if pairs = [] then none
    else some (.insert table ((quotedPairs pairs).map Prod.fst) (pairs.map Prod.snd))
  | .update =>
    let conds := quotedPairs (pairs.filter fun pair => primaryKey.contains pair.1)
    let sets := quotedPairs (pairs.filter fun pair => !primaryKey.contains pair.1)
    if conds = [] ∨ sets = [] then none else some (.update table sets conds)
  | .delete => if pairs = [] then none else some (.delete table (quotedPairs pairs))

/-- The scanner finds the names and the values of the change, and the statement
is the one it calls for. -/
structure ReadWithoutLoss (keyword : String → Bool) (primaryKey : String → List String)
    (change : RowChange) : Prop where
  fields : parsePGFields (String.ofList ((change.columns keyword).drop 1)) =
    (change.fields.map Field.name, change.fields.map fun field => field.value.text)
  statement : ∃ statement,
    change.intended (primaryKey (String.ofList (change.tableChars keyword))) = some statement ∧
      changeStatement primaryKey (change.line keyword) = some statement

def Unquoted (keyword : String → Bool) (name : String) : Prop :=
  isSafe name = true ∧ keyword name = false

/-- What the scanner can take apart. -/
structure Scannable (keyword : String → Bool) (fields : List Field) : Prop where
  unquoted : ∀ field ∈ fields, Unquoted keyword field.name
  scalar : ∀ field ∈ fields, field.type.array = false
  letter : ∀ field ∈ fields.tail, field.name.toList.head? ≠ some '_'

structure Lossless (keyword : String → Bool) (primaryKey : String → List String)
    (change : RowChange) : Prop where
  some : change.fields ≠ []
  schema : Unquoted keyword change.schema
  table : Unquoted keyword change.table
  fields : Scannable keyword change.fields
  keyed : change.op = .update →
    (∃ field ∈ change.fields,
      field.name ∈ primaryKey (String.ofList (change.tableChars keyword))) ∧
    ∃ field ∈ change.fields,
      field.name ∉ primaryKey (String.ofList (change.tableChars keyword))

/-! ### Values -/

theorem scanValue_bare {word : List Char} (bare : ' ' ∉ word ∧ '\'' ∉ word) (rest : List Char) :
    scanValue .outside (word ++ rest) =
      (word ++ (scanValue .outside rest).1, (scanValue .outside rest).2) := by
  induction word with
  | nil => rfl
  | cons c word ih =>
    simp only [List.mem_cons, not_or] at bare
    have noQuote : c ≠ '\'' := Ne.symm bare.2.1
    have noSpace : c ≠ ' ' := Ne.symm bare.1.1
    rw [List.cons_append, scanValue, if_neg noQuote, ih ⟨bare.1.2, bare.2.2⟩]
    simp [noSpace]

/-- A doubled quote does not end a literal. -/
theorem scanValue_inside (content rest : List Char) :
    scanValue .inside ((content.flatMap fun c => if c = '\'' then ['\'', '\''] else [c]) ++ rest) =
      ((content.flatMap fun c => if c = '\'' then ['\'', '\''] else [c]) ++
        (scanValue .inside rest).1, (scanValue .inside rest).2) := by
  induction content with
  | nil => rfl
  | cons c content ih =>
    rw [List.flatMap_cons, List.append_assoc, List.append_assoc]
    by_cases quote : c = '\''
    · simp [quote, scanValue, ih]
    · simp [quote, scanValue, ih]

theorem Literal.quoted_toList (content : String) :
    (Literal.quoted content).text.toList = '\'' :: ((content.toList.flatMap fun c =>
      if c = '\'' then ['\'', '\''] else [c]) ++ ['\'']) := by
  have replaced := replaceChars_char '\'' ['\'', '\''] content.toList
  simp only [Literal.text, replaceAll, String.toList_append, String.toList_ofList]
  rw [show "'".toList = ['\''] from rfl, show "''".toList = ['\'', '\''] from rfl, replaced]
  simp

theorem scanValue_literal (value : Literal) {rest : List Char} (boundary : rest.head? ≠ some '\'') :
    scanValue .outside (value.text.toList ++ rest) =
      (value.text.toList ++ (scanValue .outside rest).1, (scanValue .outside rest).2) := by
  cases value with
  | token text bare => exact scanValue_bare ⟨bare.1, bare.2.1⟩ rest
  | null => exact @scanValue_bare "null".toList (by decide) rest
  | quoted content =>
    have closing : scanValue .inside ('\'' :: rest) =
        ('\'' :: (scanValue .outside rest).1, (scanValue .outside rest).2) := by
      rw [scanValue]
      simp [boundary]
    rw [Literal.quoted_toList, List.cons_append, List.append_assoc, scanValue, if_pos rfl,
      List.singleton_append, scanValue_inside, closing]
    simp

/-! ### Names -/

variable {name : String}

theorem isSafe_iff : isSafe name = true ↔ ∃ c rest, name.toList = c :: rest ∧
    (isLower c || c = '_') = true ∧
    ∀ c ∈ rest, (isLower c || ('0' ≤ c && c ≤ '9') || c = '_') = true := by
  unfold isSafe
  cases name.toList with
  | nil => simp
  | cons c rest => simp

theorem isIdentChar_of_safe {c : Char}
    (safe : (isLower c || ('0' ≤ c && c ≤ '9') || c = '_') = true) : isIdentChar c = true := by
  unfold isLower at safe
  unfold isIdentChar isLetter
  simp only [Bool.or_eq_true] at safe ⊢
  rcases safe with (lower | digit) | underscore
  · exact .inl (.inr (.inl lower))
  · exact .inr digit
  · exact .inl (.inl underscore)

theorem isIdentChar_of_isSafe (safe : isSafe name = true) :
    ∀ c ∈ name.toList, isIdentChar c = true := by
  obtain ⟨first, rest, chars, firstSafe, restSafe⟩ := isSafe_iff.mp safe
  intro c member
  rw [chars, List.mem_cons] at member
  rcases member with rfl | inRest
  · apply isIdentChar_of_safe
    simp only [Bool.or_eq_true] at firstSafe ⊢
    rcases firstSafe with lower | underscore
    · exact .inl (.inl lower)
    · exact .inr underscore
  · exact isIdentChar_of_safe (restSafe c inRest)

theorem not_mem_of_isSafe (safe : isSafe name = true) {c : Char}
    (other : isIdentChar c = false) : c ∉ name.toList := by
  intro member
  rw [isIdentChar_of_isSafe safe c member] at other
  exact absurd other (by simp)

theorem escapePGIdent_toList (name : String) :
    (escapePGIdent name).toList = '"' :: ((name.toList.flatMap fun c =>
      if c = '"' then ['"', '"'] else [c]) ++ ['"']) := by
  have replaced := replaceChars_char '"' ['"', '"'] name.toList
  simp only [escapePGIdent, replaceAll, String.toList_append, String.toList_ofList]
  rw [show "\"".toList = ['"'] from rfl, show "\"\"".toList = ['"', '"'] from rfl, replaced]
  simp

theorem quoteIdentifier_of_unquoted {keyword : String → Bool}
    (unquoted : Unquoted keyword name) : quoteIdentifier keyword name = name := by
  unfold quoteIdentifier
  rw [unquoted.1, unquoted.2]
  rfl

theorem quoteIdentifier_of_quoted {keyword : String → Bool}
    (quoted : ¬ Unquoted keyword name) : quoteIdentifier keyword name = escapePGIdent name := by
  unfold quoteIdentifier
  rw [if_neg]
  intro plain
  rw [Bool.and_eq_true, Bool.not_eq_true'] at plain
  exact quoted plain

theorem quoteIdentifier_head (keyword : String → Bool) (name : String) :
    ∃ c rest, (quoteIdentifier keyword name).toList = c :: rest ∧ c ≠ ' ' := by
  by_cases unquoted : Unquoted keyword name
  · obtain ⟨c, rest, chars, -, -⟩ := isSafe_iff.mp unquoted.1
    refine ⟨c, rest, by rw [quoteIdentifier_of_unquoted unquoted, chars], ?_⟩
    rintro rfl
    exact not_mem_of_isSafe unquoted.1 (by decide : isIdentChar ' ' = false) (by simp [chars])
  · rw [quoteIdentifier_of_quoted unquoted, escapePGIdent_toList]
    exact ⟨_, _, rfl, by decide⟩

theorem length_escaped_ge (chars : List Char) :
    chars.length ≤ (chars.flatMap fun c => if c = '"' then ['"', '"'] else [c]).length := by
  induction chars with
  | nil => simp
  | cons c rest ih =>
    rw [List.flatMap_cons, List.length_append, List.length_cons]
    split
    · rw [List.length_cons, List.length_singleton]
      omega
    · rw [List.length_singleton]
      omega

/-! ### Fields -/

theorem readField_space (text : List Char) : readField (' ' :: text) = readField text := by
  simp [readField]

theorem readFields_space (fuel : Nat) (text : List Char) :
    readFields fuel (' ' :: text) = readFields fuel text := by
  cases fuel with
  | zero => rfl
  | succ fuel => rw [readFields_succ, readFields_succ, readField_space]

section Fields

variable {keyword : String → Bool} {field : Field} {rest : List Char}

theorem field_noLeadingSpace (keyword : String → Bool) (field : Field) (rest : List Char) :
    (field.chars keyword ++ rest).dropWhile (· = ' ') = field.chars keyword ++ rest := by
  obtain ⟨c, chars, shape, noSpace⟩ := quoteIdentifier_head keyword field.name
  simp [Field.chars, shape, noSpace]

/-- The name that is read ends at the first bracket. -/
theorem readField_name {text after : List Char} {pair : String × String}
    (read : readField text = some (pair, after)) :
    pair.1 = String.ofList ((text.dropWhile (· = ' ')).takeWhile (· ≠ '[')) := by
  unfold readField at read
  dsimp only at read
  split at read
  · cases read
  · have same := congrArg Prod.fst (Option.some.inj read)
    exact (congrArg Prod.fst same).symm

/-- A quoted name is read with its quotes, so it is not the name of the column. -/
theorem readField_quoted (quoted : ¬ Unquoted keyword field.name) {after : List Char}
    {pair : String × String}
    (read : readField (field.chars keyword ++ rest) = some (pair, after)) :
    pair.1 ≠ field.name := by
  rw [readField_name read, field_noLeadingSpace]
  intro same
  have chars := congrArg String.toList same
  rw [String.toList_ofList] at chars
  unfold Field.chars at chars
  rw [quoteIdentifier_of_quoted quoted, List.append_assoc, List.cons_append] at chars
  by_cases bracket : '[' ∈ field.name.toList
  · rw [← chars] at bracket
    have noBracket := List.all_eq_true.mp List.all_takeWhile '[' bracket
    simp at noBracket
  · have noBracket : ∀ c ∈ (escapePGIdent field.name).toList, decide (c ≠ '[') = true := by
      intro c member
      rw [decide_eq_true_eq]
      rintro rfl
      rw [escapePGIdent_toList, List.mem_cons, List.mem_append, List.mem_flatMap] at member
      rcases member with isQuote | ⟨c, inName, isBracket⟩ | isQuote
      · exact absurd isQuote (by decide)
      · split at isBracket
        · simp at isBracket
        · rw [List.mem_singleton] at isBracket
          exact bracket (isBracket ▸ inName)
      · simp at isQuote
    rw [List.takeWhile_append_of_pos noBracket] at chars
    have lengths := congrArg List.length chars
    have longer := length_escaped_ge field.name.toList
    rw [escapePGIdent_toList] at lengths
    simp only [List.length_append, List.length_cons, List.length_nil] at lengths
    omega

/-- The type that is read ends at the first closing bracket. -/
theorem readField_unquoted (unquoted : Unquoted keyword field.name) {type afterType : List Char}
    (shape : field.type.text.toList ++ ']' :: ':' :: (field.value.text.toList ++ rest) =
      type ++ ']' :: afterType) (typeEnds : ']' ∉ type) {text : List Char}
    (colon : text = if afterType.head? = some ':' then afterType.tail else afterType) :
    readField (field.chars keyword ++ rest) =
      some ((field.name, String.ofList (scanValue .outside text).1),
        (scanValue .outside text).2) := by
  have nameEnds : ∀ c ∈ field.name.toList, decide (c ≠ '[') = true := by
    intro c member
    rw [decide_eq_true_eq]
    rintro rfl
    exact not_mem_of_isSafe unquoted.1 (by decide) member
  have typeScanned : ∀ c ∈ '[' :: type, decide (c ≠ ']') = true := by
    intro c member
    rw [decide_eq_true_eq]
    rintro rfl
    rcases List.mem_cons.mp member with isOpen | inType
    · exact absurd isOpen (by decide)
    · exact typeEnds inType
  have chars : field.chars keyword ++ rest =
      field.name.toList ++ '[' :: (type ++ ']' :: afterType) := by
    unfold Field.chars
    rw [quoteIdentifier_of_unquoted unquoted, ← shape]
    simp
  have name : (field.chars keyword ++ rest).takeWhile (· ≠ '[') = field.name.toList := by
    rw [chars, List.takeWhile_append_of_pos nameEnds]
    simp
  have afterName : (field.chars keyword ++ rest).dropWhile (· ≠ '[') =
      ('[' :: type) ++ ']' :: afterType := by
    rw [chars, List.dropWhile_append_of_pos nameEnds]
    simp
  have bracket : (('[' :: type) ++ ']' :: afterType).dropWhile (· ≠ ']') = ']' :: afterType := by
    rw [List.dropWhile_append_of_pos typeScanned]
    simp
  unfold readField
  simp only [field_noLeadingSpace, name, afterName, bracket, ← colon, String.ofList_toList]

theorem readField_scalar (unquoted : Unquoted keyword field.name)
    (scalar : field.type.array = false) (boundary : rest.head? ≠ some '\'') :
    readField (field.chars keyword ++ rest) =
      some ((field.name, String.ofList (field.value.text.toList ++ (scanValue .outside rest).1)),
        (scanValue .outside rest).2) := by
  have typeEnds : ']' ∉ field.type.text.toList := by
    rw [TypeName.text, scalar]
    exact field.type.noBrackets.2
  rw [readField_unquoted unquoted rfl typeEnds rfl]
  simp [scanValue_literal field.value boundary]

/-- The bracket of an array type is taken for the end of the type. -/
theorem readField_array (unquoted : Unquoted keyword field.name) (array : field.type.array = true)
    (boundary : rest.head? ≠ some '\'') :
    readField (field.chars keyword ++ rest) =
      some ((field.name, String.ofList (']' :: ':' :: (field.value.text.toList ++
        (scanValue .outside rest).1))), (scanValue .outside rest).2) := by
  have typeEnds : ']' ∉ field.type.name.toList ++ ['['] := by
    simp [field.type.noBrackets.2]
  have shape : field.type.text.toList ++ ']' :: ':' :: (field.value.text.toList ++ rest) =
      (field.type.name.toList ++ ['[']) ++
        ']' :: (']' :: ':' :: (field.value.text.toList ++ rest)) := by
    rw [TypeName.text, if_pos array]
    simp
  rw [readField_unquoted unquoted shape typeEnds rfl]
  simp [scanValue, scanValue_literal field.value boundary]

end Fields

/-! ### Tuples -/

theorem reachesBracket_of_ident {word : List Char} (ident : ∀ c ∈ word, isIdentChar c = true)
    (rest : List Char) : reachesBracket (word ++ '[' :: rest) = true := by
  induction word with
  | nil => simp [reachesBracket]
  | cons c word ih =>
    rw [List.cons_append, reachesBracket, if_pos (ident c (by simp)),
      ih fun d member => ident d (by simp [member])]
    simp

/-- A column is seen from the value before it if its name is not quoted and
begins with a letter. -/
theorem nextFieldAt_field {keyword : String → Bool} {field : Field} {rest : List Char} :
    nextFieldAt (field.chars keyword ++ rest) = true ↔
      Unquoted keyword field.name ∧ field.name.toList.head? ≠ some '_' := by
  by_cases unquoted : Unquoted keyword field.name
  · obtain ⟨first, others, chars, firstSafe, -⟩ := isSafe_iff.mp unquoted.1
    have ident : ∀ c ∈ others, isIdentChar c = true := fun c member =>
      isIdentChar_of_isSafe unquoted.1 c (by simp [chars, member])
    have shape : field.chars keyword ++ rest = first :: (others ++ '[' ::
        (field.type.text.toList ++ ']' :: ':' :: (field.value.text.toList ++ rest))) := by
      unfold Field.chars
      rw [quoteIdentifier_of_unquoted unquoted, chars]
      simp
    rw [shape, nextFieldAt, reachesBracket_of_ident ident, Bool.and_true, chars, List.head?_cons]
    have underscore : isLetter '_' = false := by decide
    constructor
    · intro letter
      refine ⟨unquoted, ?_⟩
      rw [ne_eq, Option.some.injEq]
      rintro rfl
      rw [underscore] at letter
      exact absurd letter (by simp)
    · rintro ⟨-, notUnderscore⟩
      rw [ne_eq, Option.some.injEq] at notUnderscore
      rw [Bool.or_eq_true, decide_eq_true_eq] at firstSafe
      rcases firstSafe with lower | isUnderscore
      · unfold isLower at lower
        unfold isLetter
        rw [lower, Bool.true_or]
      · exact absurd isUnderscore notUnderscore
  · have shape : ∃ tail, field.chars keyword ++ rest = '"' :: tail := by
      unfold Field.chars
      rw [quoteIdentifier_of_quoted unquoted, escapePGIdent_toList]
      exact ⟨_, rfl⟩
    obtain ⟨tail, isTail⟩ := shape
    have quote : isLetter '"' = false := by decide
    rw [isTail, nextFieldAt, quote]
    simp [unquoted]

theorem tuple_cons (keyword : String → Bool) (field : Field) (rest : List Field) :
    tuple keyword (field :: rest) = ' ' :: (field.chars keyword ++ tuple keyword rest) := rfl

theorem tuple_boundary (keyword : String → Bool) (fields : List Field) :
    (tuple keyword fields).head? ≠ some '\'' := by
  cases fields with
  | nil => simp [tuple]
  | cons field rest => simp [tuple_cons]

theorem scannable_cons_cons {keyword : String → Bool} {field next : Field} {rest : List Field} :
    Scannable keyword (field :: next :: rest) ↔
      Unquoted keyword field.name ∧ field.type.array = false ∧
        next.name.toList.head? ≠ some '_' ∧ Scannable keyword (next :: rest) := by
  constructor
  · rintro ⟨unquoted, scalar, letter⟩
    refine ⟨unquoted field (by simp), scalar field (by simp), letter next (by simp), ?_⟩
    exact ⟨fun f member => unquoted f (by simp [member]),
      fun f member => scalar f (by simp [member]),
      (List.forall_mem_cons.mp letter).2⟩
  · rintro ⟨unquoted, scalar, letter, others⟩
    refine ⟨?_, ?_, ?_⟩
    · intro f member
      rcases List.mem_cons.mp member with rfl | later
      · exact unquoted
      · exact others.unquoted f later
    · intro f member
      rcases List.mem_cons.mp member with rfl | later
      · exact scalar
      · exact others.scalar f later
    · intro f member
      rcases List.mem_cons.mp member with rfl | later
      · exact letter
      · exact others.letter f later

theorem scanValue_seen {text : List Char} (seen : nextFieldAt text = true) :
    scanValue .outside (' ' :: text) = ([], ' ' :: text) := by
  simp [scanValue, seen]

theorem scanValue_unseen {text : List Char} (unseen : ¬ nextFieldAt text = true) :
    ∃ more after, scanValue .outside (' ' :: text) = (' ' :: more, after) := by
  rw [scanValue, if_neg (by decide), if_neg (by simp [unseen])]
  exact ⟨_, _, rfl⟩

theorem readFields_nil (fuel : Nat) : readFields fuel [] = [] := by
  cases fuel with
  | zero => rfl
  | succ fuel => rfl

theorem ofList_ne_of_longer {word : String} {chars : List Char}
    (longer : word.toList.length < chars.length) : String.ofList chars ≠ word := by
  intro same
  have lengths := congrArg (fun text => text.toList.length) same
  simp only [String.toList_ofList] at lengths
  omega

/-- The scanner finds the columns of a tuple exactly if it can take each of them
apart and sees each of them from the one before. -/
theorem readFields_tuple_iff (keyword : String → Bool) (fields : List Field) {fuel : Nat}
    (enough : (tuple keyword fields).length ≤ fuel) :
    readFields fuel (tuple keyword fields) = fields.map Field.pair ↔ Scannable keyword fields := by
  induction fields generalizing fuel with
  | nil =>
    have nothing : readFields fuel (tuple keyword []) = [] := readFields_nil fuel
    simp only [nothing, List.map_nil, true_iff]
    exact ⟨by simp, by simp, by simp⟩
  | cons field rest ih =>
    rw [tuple_cons, List.length_cons, List.length_append] at enough
    obtain ⟨fuel, rfl⟩ : ∃ k, fuel = k + 1 := ⟨fuel - 1, by omega⟩
    rw [tuple_cons, readFields_space, readFields_succ, List.map_cons]
    have boundary := tuple_boundary keyword rest
    by_cases unquoted : Unquoted keyword field.name
    · cases array : field.type.array with
      | true =>
        rw [readField_array unquoted array boundary]
        constructor
        · intro same
          have values := congrArg Prod.snd (List.cons.inj same).1
          exact absurd values (ofList_ne_of_longer (by simp [Field.pair]; omega))
        · intro scannable
          have scalar := scannable.scalar field (by simp)
          rw [array] at scalar
          exact absurd scalar (by simp)
      | false =>
        rw [readField_scalar unquoted array boundary]
        cases rest with
        | nil =>
          have alone : Scannable keyword [field] :=
            ⟨by simpa using unquoted, by simpa using array, by simp⟩
          simp [tuple, scanValue, readFields_nil, Field.pair, alone]
        | cons next others =>
          rw [scannable_cons_cons, tuple_cons]
          by_cases seen : nextFieldAt (next.chars keyword ++ tuple keyword others) = true
          · have stops := scanValue_seen seen
            have rest := @ih fuel (by omega)
            rw [tuple_cons] at rest
            have letter := (nextFieldAt_field.mp seen).2
            simp only [stops, List.append_nil, String.ofList_toList, List.cons.injEq, rest]
            simp [Field.pair, unquoted, array, letter]
          · obtain ⟨more, after, runsOn⟩ := scanValue_unseen seen
            rw [runsOn]
            constructor
            · intro same
              have values := congrArg Prod.snd (List.cons.inj same).1
              exact absurd values (ofList_ne_of_longer (by simp [Field.pair]))
            · rintro ⟨-, -, letter, scannable⟩
              exact absurd
                (nextFieldAt_field.mpr ⟨scannable.unquoted next (by simp), letter⟩) seen
    · constructor
      · intro same
        cases read : readField (field.chars keyword ++ tuple keyword rest) with
        | none =>
          rw [read] at same
          exact absurd same (by simp)
        | some found =>
          obtain ⟨pair, after⟩ := found
          rw [read] at same
          have names := congrArg Prod.fst (List.cons.inj same).1
          exact absurd names (readField_quoted unquoted read)
      · intro scannable
        exact absurd (scannable.unquoted field (by simp)) unquoted

/-! ### The table -/

theorem cutColon_append {word : List Char} (noColon : ':' ∉ word) (rest : List Char) :
    cutColon (word ++ rest) = (cutColon rest).map fun cut => (word ++ cut.1, cut.2) := by
  unfold cutColon
  rw [indexOf_append_of_not_mem noColon, Option.map_map, Option.map_map]
  congr 1
  funext idx
  have dropped : (word ++ rest).drop (idx + word.length + 2) = rest.drop (idx + 2) := by
    rw [show idx + word.length + 2 = word.length + (idx + 2) by omega, List.drop_append]
    simp
  have taken : (word ++ rest).take (idx + word.length) = word ++ rest.take idx := by
    rw [Nat.add_comm, List.take_append]
    simp
  simp [taken, dropped]

theorem cutColon_here (rest : List Char) : cutColon (':' :: ' ' :: rest) = some ([], rest) := by
  simp [cutColon, indexOf]

/-- How many quotes a text begins with. -/
def leadingQuotes (text : List Char) : Nat := (text.takeWhile (· = '"')).length

def escaped (chars : List Char) : List Char :=
  chars.flatMap fun c => if c = '"' then ['"', '"'] else [c]

theorem leadingQuotes_escaped (chars rest : List Char) :
    2 * leadingQuotes chars ≤ leadingQuotes (escaped chars ++ rest) ∧
      leadingQuotes (escaped chars ++ rest) ≤ 2 * leadingQuotes chars + leadingQuotes rest := by
  unfold leadingQuotes escaped
  induction chars with
  | nil => simp
  | cons c chars ih =>
    rw [List.flatMap_cons, List.append_assoc]
    by_cases quote : c = '"'
    · simp only [quote, if_true, List.cons_append, List.nil_append, List.takeWhile_cons,
        decide_true, List.length_cons]
      omega
    · simp [quote]

theorem leadingQuotes_escapePGIdent (name : String) (rest : List Char) :
    1 + 2 * leadingQuotes name.toList ≤ leadingQuotes ((escapePGIdent name).toList ++ rest) ∧
      leadingQuotes ((escapePGIdent name).toList ++ rest) ≤
        2 + 2 * leadingQuotes name.toList + leadingQuotes rest := by
  have shape : (escapePGIdent name).toList ++ rest =
      '"' :: (escaped name.toList ++ '"' :: rest) := by
    rw [escapePGIdent_toList, escaped]
    simp
  have opened : leadingQuotes ('"' :: (escaped name.toList ++ '"' :: rest)) =
      1 + leadingQuotes (escaped name.toList ++ '"' :: rest) := by
    simp [leadingQuotes, Nat.add_comm]
  have closed : leadingQuotes ('"' :: rest) = 1 + leadingQuotes rest := by
    simp [leadingQuotes, Nat.add_comm]
  obtain ⟨low, high⟩ := leadingQuotes_escaped name.toList ('"' :: rest)
  rw [closed] at high
  rw [shape, opened]
  omega

theorem leadingQuotes_of_isPrefix {start text : List Char} (starts : start <+: text)
    (quotes : ∀ c ∈ start, c = '"') : start.length ≤ leadingQuotes text := by
  obtain ⟨rest, rfl⟩ := starts
  unfold leadingQuotes
  rw [List.takeWhile_append_of_pos (by simpa using quotes), List.length_append]
  omega

theorem splitOn_append_of_not_mem {sep : Char} {start : List Char} (noSep : sep ∉ start)
    (rest : List Char) :
    ∃ head tail, (start ++ rest).splitOn sep = (start ++ head) :: tail := by
  induction start with
  | nil =>
    obtain ⟨head, tail, parts⟩ := List.exists_cons_of_ne_nil (List.splitOn_ne_nil sep rest)
    exact ⟨head, tail, parts⟩
  | cons c start ih =>
    rw [List.mem_cons, not_or] at noSep
    obtain ⟨head, tail, parts⟩ := ih noSep.2
    rw [List.splitOn_eq_splitOnP] at parts
    obtain ⟨first, others, restParts, shape⟩ :=
      @splitOnP_cons_other Char (· == sep) c (by simpa using Ne.symm noSep.1) (start ++ rest)
    refine ⟨head, tail, ?_⟩
    rw [List.cons_append, List.splitOn_eq_splitOnP, shape]
    rw [restParts, List.cons.injEq] at parts
    rw [parts.1, parts.2, List.cons_append]

theorem escapeQualified_eq (chars : List Char) {first : List Char} {others : List (List Char)}
    (parts : chars.splitOn '.' = first :: others) :
    ∃ rest, (escapeQualifiedPGIdent (String.ofList chars)).toList =
      (escapePGIdent (String.ofList first)).toList ++ rest := by
  unfold escapeQualifiedPGIdent
  rw [String.toList_ofList, parts, List.map_cons]
  cases others with
  | nil => exact ⟨[], by simp⟩
  | cons second others =>
    rw [List.map_cons, String.intercalate_cons_cons]
    exact ⟨_, by rw [String.append_assoc, String.toList_append]⟩

/-- A name that is quoted already is quoted again, which gives it more quotes at
its start than it should have. -/
theorem escapeQualified_quoted {name : String} {cut rest tail : List Char}
    (starts : ((escapePGIdent name).toList ++ rest).takeWhile (· = '"') <+: cut)
    (noQuote : leadingQuotes tail = 0) :
    (escapeQualifiedPGIdent (String.ofList cut)).toList ≠ (escapePGIdent name).toList ++ tail := by
  intro same
  obtain ⟨after, rfl⟩ := starts
  have quotes : ∀ c ∈ ((escapePGIdent name).toList ++ rest).takeWhile (· = '"'), c = '"' := by
    intro c member
    simpa using List.all_eq_true.mp List.all_takeWhile c member
  have noDot : '.' ∉ ((escapePGIdent name).toList ++ rest).takeWhile (· = '"') := by
    intro dot
    exact absurd (quotes '.' dot) (by decide)
  obtain ⟨head, others, parts⟩ := splitOn_append_of_not_mem noDot after
  obtain ⟨more, whole⟩ := escapeQualified_eq _ parts
  have run := leadingQuotes_of_isPrefix (List.prefix_append _ head) quotes
  have long := (leadingQuotes_escapePGIdent name rest).1
  have doubled := (leadingQuotes_escapePGIdent (String.ofList
    (((escapePGIdent name).toList ++ rest).takeWhile (· = '"') ++ head)) more).1
  have short := (leadingQuotes_escapePGIdent name tail).2
  rw [← whole, same, String.toList_ofList] at doubled
  unfold leadingQuotes at *
  omega

def Statement.table : Statement → String
  | .insert table _ _ => table
  | .update table _ _ => table
  | .delete table _ => table

variable {statement : Statement}

theorem fieldStatement_table {primaryKey : List String} {table op : String}
    {fields : List (String × String)}
    (made : fieldStatement primaryKey table op fields = some statement) :
    statement.table = escapeQualifiedPGIdent table := by
  unfold fieldStatement at made
  dsimp only at made
  split at made
  · cases made
  · split at made
    · rw [← Option.some.inj made]
      rfl
    · split at made
      · split at made
        · cases made
        · rw [← Option.some.inj made]
          rfl
      · split at made
        · rw [← Option.some.inj made]
          rfl
        · cases made

theorem changeStatement_line (keyword : String → Bool) (primaryKey : String → List String)
    (change : RowChange) :
    changeStatement primaryKey (change.line keyword) =
      (cutColon (change.tableChars keyword ++ ':' :: ' ' ::
        (change.op.word.toList ++ ':' :: change.columns keyword))).bind fun (table, rest) =>
          (cutColon rest).bind fun (op, columns) =>
            fieldStatement (primaryKey (String.ofList table)) (String.ofList table)
              (String.ofList op)
              ((parsePGFields (String.ofList columns)).1.zip
                (parsePGFields (String.ofList columns)).2) := by
  unfold changeStatement RowChange.line
  rw [if_pos (hasPrefix_append _ _), trimPrefix_append, String.toList_ofList]
  cases cutColon (change.tableChars keyword ++ ':' :: ' ' ::
      (change.op.word.toList ++ ':' :: change.columns keyword)) with
  | none => rfl
  | some cut =>
    obtain ⟨table, rest⟩ := cut
    dsimp only [Option.bind_some]
    cases cutColon rest with
    | none => rfl
    | some second => rfl

variable {change : RowChange}

theorem changeStatement_table {keyword : String → Bool} {primaryKey : String → List String}
    (made : changeStatement primaryKey (change.line keyword) = some statement) :
    ∃ table rest, cutColon (change.tableChars keyword ++ ':' :: ' ' ::
        (change.op.word.toList ++ ':' :: change.columns keyword)) = some (table, rest) ∧
      statement.table = escapeQualifiedPGIdent (String.ofList table) := by
  rw [changeStatement_line, Option.bind_eq_some_iff] at made
  obtain ⟨⟨table, rest⟩, isCut, made⟩ := made
  obtain ⟨⟨op, columns⟩, -, made⟩ := Option.bind_eq_some_iff.mp made
  exact ⟨table, rest, isCut, fieldStatement_table made⟩

theorem RowChange.intended_table {primaryKey : List String}
    (intended : change.intended primaryKey = some statement) :
    statement.table = escapePGIdent change.schema ++ "." ++ escapePGIdent change.table := by
  unfold RowChange.intended at intended
  dsimp only at intended
  split at intended
  · rw [Option.ite_none_left_eq_some] at intended
    rw [← Option.some.inj intended.2]
    rfl
  · rw [Option.ite_none_left_eq_some] at intended
    rw [← Option.some.inj intended.2]
    rfl
  · rw [Option.ite_none_left_eq_some] at intended
    rw [← Option.some.inj intended.2]
    rfl

theorem escapeQualified_append {start : String} (noDot : '.' ∉ start.toList) (rest : List Char) :
    (escapeQualifiedPGIdent (String.ofList (start.toList ++ '.' :: rest))).toList =
      (escapePGIdent start).toList ++
        '.' :: (escapeQualifiedPGIdent (String.ofList rest)).toList := by
  obtain ⟨first, others, parts⟩ := List.exists_cons_of_ne_nil (List.splitOn_ne_nil '.' rest)
  unfold escapeQualifiedPGIdent
  rw [String.toList_ofList, String.toList_ofList, List.splitOn_append_cons_self_of_not_mem noDot,
    List.map_cons, parts, List.map_cons, String.ofList_toList, String.intercalate_cons_cons]
  simp

/-- The statement names the table of the change only if nothing of the name had
to be quoted. -/
theorem unquoted_of_statement {keyword : String → Bool} {primaryKey : String → List String}
    (made : changeStatement primaryKey (change.line keyword) = some statement)
    (named : statement.table = escapePGIdent change.schema ++ "." ++ escapePGIdent change.table) :
    Unquoted keyword change.schema ∧ Unquoted keyword change.table := by
  obtain ⟨cut, rest, isCut, isTable⟩ := changeStatement_table made
  rw [isTable] at named
  have chars := congrArg String.toList named
  rw [String.toList_append, String.toList_append, List.append_assoc] at chars
  have quotesNoColon : ∀ text : List Char, ':' ∉ text.takeWhile (· = '"') := by
    intro text colon
    have quote := List.all_eq_true.mp List.all_takeWhile ':' colon
    simp at quote
  have startsWithRun : ∀ {text cut rest : List Char}, cutColon text = some (cut, rest) →
      text.takeWhile (· = '"') <+: cut := by
    intro text cut rest isCut
    rw [← List.takeWhile_append_dropWhile (p := (· = '"')) (l := text),
      cutColon_append (quotesNoColon text)] at isCut
    obtain ⟨after, -, same⟩ := Option.map_eq_some_iff.mp isCut
    rw [← (Prod.mk.inj same).1]
    exact List.prefix_append _ _
  have schema : Unquoted keyword change.schema := by
    by_contra quoted
    have run := startsWithRun isCut
    unfold RowChange.tableChars at run
    rw [quoteIdentifier_of_quoted quoted, List.append_assoc] at run
    exact escapeQualified_quoted run (by simp [leadingQuotes]) chars
  refine ⟨schema, ?_⟩
  by_contra quoted
  have dotted : ':' ∉ change.schema.toList ++ ['.'] := by
    simp [not_mem_of_isSafe schema.1 (by decide : isIdentChar ':' = false)]
  have split : change.tableChars keyword ++ ':' :: ' ' ::
      (change.op.word.toList ++ ':' :: change.columns keyword) =
        (change.schema.toList ++ ['.']) ++ ((escapePGIdent change.table).toList ++ ':' :: ' ' ::
          (change.op.word.toList ++ ':' :: change.columns keyword)) := by
    unfold RowChange.tableChars
    rw [quoteIdentifier_of_unquoted schema, quoteIdentifier_of_quoted quoted]
    simp
  rw [split, cutColon_append dotted] at isCut
  obtain ⟨⟨after, remaining⟩, isAfter, same⟩ := Option.map_eq_some_iff.mp isCut
  have isCutText : cut = change.schema.toList ++ '.' :: after := by
    rw [← (Prod.mk.inj same).1]
    simp
  have noDot : '.' ∉ change.schema.toList := not_mem_of_isSafe schema.1 (by decide)
  rw [isCutText, escapeQualified_append noDot] at chars
  have tables := (List.cons.inj (List.append_cancel_left chars)).2
  exact @escapeQualified_quoted change.table after _ [] (startsWithRun isAfter)
    (by simp [leadingQuotes]) (by simpa using tables)

/-! ### Changes -/

section Changes

variable {keyword : String → Bool} {primaryKey : String → List String} {change : RowChange}

theorem RowChange.columns_eq (some : change.fields ≠ []) :
    ∃ text, tuple keyword change.fields = ' ' :: text ∧
      change.columns keyword = ' ' :: text := by
  obtain ⟨field, rest, fields⟩ := List.exists_cons_of_ne_nil some
  have shape := tuple_cons keyword field rest
  refine ⟨_, by rw [fields, shape], ?_⟩
  unfold RowChange.columns
  rw [if_neg (by simp [some]), fields, shape]

theorem parsePGFields_iff (some : change.fields ≠ []) :
    parsePGFields (String.ofList ((change.columns keyword).drop 1)) =
        (change.fields.map Field.name, change.fields.map fun field => field.value.text) ↔
      Scannable keyword change.fields := by
  obtain ⟨text, isTuple, isColumns⟩ := @RowChange.columns_eq keyword change some
  have scanned := @readFields_tuple_iff keyword change.fields (text.length + 1)
    (by rw [isTuple, List.length_cons])
  rw [isTuple, readFields_space] at scanned
  have pairs : (change.fields.map Field.pair).map Prod.fst = change.fields.map Field.name ∧
      (change.fields.map Field.pair).map Prod.snd =
        change.fields.map fun field => field.value.text := by
    simp [List.map_map, Function.comp_def, Field.pair]
  rw [← scanned, isColumns, List.drop_one, List.tail_cons]
  constructor
  · intro parsed
    have zipped := parsePGFields_zip (String.ofList text)
    rw [parsed, String.toList_ofList] at zipped
    rw [← zipped, ← pairs.1, ← pairs.2]
    exact (List.zip_of_prod rfl rfl).symm
  · intro read
    unfold parsePGFields
    rw [String.toList_ofList, read, ← pairs.1, ← pairs.2]

theorem Operation.word_noColon (op : Operation) : ':' ∉ op.word.toList := by
  cases op with
  | insert => decide
  | update => decide
  | delete => decide

theorem changeStatement_of_scannable (some : change.fields ≠ [])
    (schema : Unquoted keyword change.schema) (table : Unquoted keyword change.table)
    (scannable : Scannable keyword change.fields) :
    changeStatement primaryKey (change.line keyword) =
      fieldStatement (primaryKey (String.ofList (change.tableChars keyword)))
        (String.ofList (change.tableChars keyword)) change.op.word
        (change.fields.map Field.pair) := by
  obtain ⟨text, -, isColumns⟩ := @RowChange.columns_eq keyword change some
  have tableNoColon : ':' ∉ change.tableChars keyword := by
    unfold RowChange.tableChars
    rw [quoteIdentifier_of_unquoted schema, quoteIdentifier_of_unquoted table]
    have colon : isIdentChar ':' = false := by decide
    simp [not_mem_of_isSafe schema.1 colon, not_mem_of_isSafe table.1 colon]
  have parsed := (parsePGFields_iff some).mpr scannable
  rw [isColumns, List.drop_one, List.tail_cons] at parsed
  rw [changeStatement_line, isColumns, cutColon_append tableNoColon, cutColon_here,
    Option.map_some, Option.bind_some]
  dsimp only
  rw [cutColon_append change.op.word_noColon, cutColon_here, Option.map_some, Option.bind_some]
  dsimp only
  rw [parsed, List.append_nil, List.append_nil, String.ofList_toList]
  congr 1
  rw [List.zip_map']
  rfl

theorem escapeQualified_tableChars (schema : Unquoted keyword change.schema)
    (table : Unquoted keyword change.table) :
    escapeQualifiedPGIdent (String.ofList (change.tableChars keyword)) =
      escapePGIdent change.schema ++ "." ++ escapePGIdent change.table := by
  have noDot : '.' ∉ change.table.toList := not_mem_of_isSafe table.1 (by decide)
  have lone : escapeQualifiedPGIdent change.table = escapePGIdent change.table := by
    unfold escapeQualifiedPGIdent
    rw [List.splitOn_eq_singleton noDot]
    simp
  apply String.toList_injective
  unfold RowChange.tableChars
  rw [quoteIdentifier_of_unquoted schema, quoteIdentifier_of_unquoted table,
    escapeQualified_append (not_mem_of_isSafe schema.1 (by decide)), String.ofList_toList, lone]
  simp

theorem quotedPairs_eq_nil {pairs : List (String × String)} : quotedPairs pairs = [] ↔ pairs = [] :=
  List.map_eq_nil_iff

theorem intended_of_keyed (some : change.fields ≠ []) {key : List String}
    (keyed : change.op = .update → (∃ field ∈ change.fields, field.name ∈ key) ∧
      ∃ field ∈ change.fields, field.name ∉ key)
    {table : String}
    (isTable : escapeQualifiedPGIdent table =
      escapePGIdent change.schema ++ "." ++ escapePGIdent change.table) :
    ∃ statement, change.intended key = Option.some statement ∧
      fieldStatement key table change.op.word (change.fields.map Field.pair) =
        Option.some statement := by
  have pairsSome : change.fields.map Field.pair ≠ [] := by simpa using some
  unfold RowChange.intended fieldStatement
  dsimp only
  rw [isTable]
  cases op : change.op with
  | insert =>
    refine ⟨_, if_neg pairsSome, ?_⟩
    rw [if_neg pairsSome, if_pos (show Operation.insert.word = "INSERT" from rfl)]
  | delete =>
    refine ⟨_, if_neg pairsSome, ?_⟩
    rw [if_neg pairsSome, if_neg (show Operation.delete.word ≠ "INSERT" by decide),
      if_neg (show Operation.delete.word ≠ "UPDATE" by decide),
      if_pos (show Operation.delete.word = "DELETE" from rfl)]
  | update =>
    obtain ⟨⟨inKey, isField, named⟩, other, isOther, unnamed⟩ := keyed op
    have conds : quotedPairs ((change.fields.map Field.pair).filter fun pair =>
        key.contains pair.1) ≠ [] := by
      rw [ne_eq, quotedPairs_eq_nil]
      exact List.ne_nil_of_mem (List.mem_filter.mpr
        ⟨List.mem_map_of_mem isField, by simpa [Field.pair] using named⟩)
    have sets : quotedPairs ((change.fields.map Field.pair).filter fun pair =>
        !key.contains pair.1) ≠ [] := by
      rw [ne_eq, quotedPairs_eq_nil]
      exact List.ne_nil_of_mem (List.mem_filter.mpr
        ⟨List.mem_map_of_mem isOther, by simpa [Field.pair] using unnamed⟩)
    refine ⟨_, by rw [if_neg (not_or.mpr ⟨conds, sets⟩)], ?_⟩
    rw [if_neg pairsSome, if_neg (show Operation.update.word ≠ "INSERT" by decide),
      if_pos (show Operation.update.word = "UPDATE" from rfl), if_neg conds]

theorem keyed_of_intended {key : List String} {statement : Statement}
    (intended : change.intended key = Option.some statement) :
    change.fields ≠ [] ∧
      (change.op = .update → (∃ field ∈ change.fields, field.name ∈ key) ∧
        ∃ field ∈ change.fields, field.name ∉ key) := by
  have memberOf : ∀ {keep : String × String → Bool},
      quotedPairs ((change.fields.map Field.pair).filter keep) ≠ [] →
        ∃ field ∈ change.fields, keep field.pair = true := by
    intro keep notEmpty
    rw [ne_eq, quotedPairs_eq_nil] at notEmpty
    obtain ⟨pair, member⟩ := List.exists_mem_of_ne_nil _ notEmpty
    obtain ⟨isPair, kept⟩ := List.mem_filter.mp member
    obtain ⟨field, isField, rfl⟩ := List.mem_map.mp isPair
    exact ⟨field, isField, kept⟩
  unfold RowChange.intended at intended
  dsimp only at intended
  cases op : change.op with
  | insert =>
    rw [op] at intended
    rw [Option.ite_none_left_eq_some] at intended
    exact ⟨by simpa using intended.1, by simp⟩
  | delete =>
    rw [op] at intended
    rw [Option.ite_none_left_eq_some] at intended
    exact ⟨by simpa using intended.1, by simp⟩
  | update =>
    rw [op] at intended
    rw [Option.ite_none_left_eq_some, not_or] at intended
    obtain ⟨inKey, isField, named⟩ := memberOf intended.1.1
    obtain ⟨other, isOther, unnamed⟩ := memberOf intended.1.2
    refine ⟨List.ne_nil_of_mem isField, fun _ => ⟨⟨inKey, isField, ?_⟩, other, isOther, ?_⟩⟩
    · simpa [Field.pair] using named
    · simpa [Field.pair] using unnamed

end Changes

/-- A column of an array type. -/
def tagsInserted : RowChange where
  schema := "public"
  table := "posts"
  op := .insert
  fields := [
    { name := "id", type := { name := "integer", noBrackets := by decide },
      value := .token "1" (by decide) },
    { name := "tags", type := { name := "text", array := true, noBrackets := by decide },
      value := .quoted "\x7ba\x7d" }]

end DbBackup.Engine.Postgres.Changes
