import DbBackup.Engine.Mysql.InsertText
import DbBackup.Engine.Mysql.Rows

/-!
Owns how MySQL reads what `streamRows` writes: every literal is one token, and a
statement is the `INSERT` of its table, its columns and its rows.

Contract: `readInsert_statement`, for rows without an empty blob in hexadecimal form.
The literals are described once, by the token each is read as (`whole_literal`).
-/

set_option linter.all false

namespace DbBackup.Engine.Mysql.RowsRead

open Engine.Mysql.InsertText Engine.Mysql.Rows Lib.Escaped Lib.GoString

/-! ### Escapes -/

def stringEscape (c : Char) : List Char :=
  if c = '\\' then ['\\', '\\']
  else if c = '\x00' then ['\\', '0']
  else if c = '\'' then ['\\', '\'']
  else if c = '"' then ['\\', '"']
  else if c = '\n' then ['\\', 'n']
  else if c = '\r' then ['\\', 'r']
  else [c]

def blobEscape (c : Char) : List Char :=
  if c = '\x1a' then ['\\', 'Z'] else stringEscape c

/-- A character that `escapeString` writes with a backslash, or another one. -/
theorem stringEscape_cases (c : Char) :
    (c = '\\' ∨ c = '\x00' ∨ c = '\'' ∨ c = '"' ∨ c = '\n' ∨ c = '\r') ∨
      (¬ (c = '\\' ∨ c = '\x00' ∨ c = '\'' ∨ c = '"' ∨ c = '\n' ∨ c = '\r') ∧
        stringEscape c = [c]) := by
  apply or_iff_not_imp_left.mpr
  intro special
  refine ⟨special, ?_⟩
  simp only [not_or] at special
  simp [stringEscape, special]

theorem toList_escapeString (s : String) :
    (escapeString s).toList = s.toList.flatMap stringEscape := by
  unfold escapeString
  simp only
  rw [toList_replaceAll_char _ '\r' ['\\', 'r'], toList_replaceAll_char _ '\n' ['\\', 'n'],
    toList_replaceAll_char _ '"' ['\\', '"'], toList_replaceAll_char _ '\'' ['\\', '\''],
    toList_replaceAll_char _ '\x00' ['\\', '0'], toList_replaceAll_char _ '\\' ['\\', '\\'],
    List.flatMap_assoc, List.flatMap_assoc, List.flatMap_assoc, List.flatMap_assoc,
    List.flatMap_assoc]
  congr 1
  funext c
  rcases stringEscape_cases c with special | ⟨plain, written⟩
  · rcases special with rfl | rfl | rfl | rfl | rfl | rfl
    all_goals decide
  · simp only [not_or] at plain
    simp [written, plain]

theorem toList_escapeBlob (s : String) : (escapeBlob s).toList = s.toList.flatMap blobEscape := by
  unfold escapeBlob
  rw [toList_replaceAll_char _ '\x1a' ['\\', 'Z'], toList_escapeString, List.flatMap_assoc]
  congr 1
  funext c
  by_cases isSub : c = '\x1a'
  · subst isSub
    decide
  · rw [blobEscape, if_neg isSub]
    rcases stringEscape_cases c with special | ⟨-, written⟩
    · rcases special with rfl | rfl | rfl | rfl | rfl | rfl
      all_goals decide
    · rw [written, List.flatMap_singleton, if_neg isSub]

theorem escapes_stringEscape : Escapes stringEscape := by
  intro c before chars
  rcases stringEscape_cases c with special | ⟨plain, written⟩
  · rcases special with rfl | rfl | rfl | rfl | rfl | rfl
    all_goals rfl
  · simp only [not_or] at plain
    rw [written, List.foldlM_cons, next, if_neg plain.1, if_neg plain.2.2.1]
    rfl

theorem escapes_blobEscape : Escapes blobEscape := by
  intro c before chars
  by_cases isSub : c = '\x1a'
  · subst isSub
    rfl
  · rw [blobEscape, if_neg isSub]
    exact escapes_stringEscape c before chars

/-! ### Literals -/

/-- NULL or the bytes of a column, as the driver hands them out. -/
def cellValue : Cell → Value
  | none => .nil
  | some bytes => .bytes bytes

def byteChars (bytes : List UInt8) : List Char :=
  bytes.map fun byte => Char.ofNat byte.toNat

variable (bytes : List UInt8)

theorem bytesOf_byteChars : bytesOf (byteChars bytes) = bytes := by
  rw [bytesOf, byteChars, List.map_map]
  conv => rhs; rw [← List.map_id bytes]
  refine List.map_congr_left fun byte _ => ?_
  have small : byte.toNat < 55296 := Nat.lt_trans byte.toNat_lt (by decide)
  have isChar : (Char.ofNat byte.toNat).toNat = byte.toNat := by
    rw [Char.ofNat, dif_pos (.inl small)]
    rfl
  rw [Function.comp_apply, isChar, UInt8.ofNat_toNat]
  rfl

theorem toList_byteText : (byteText bytes).toList = byteChars bytes :=
  String.toList_ofList

/-- The token a literal is read as. -/
def literalToken (rawBlobs : Bool) (column : Column) : Cell → Token
  | none => .word "NULL".toList
  | some bytes =>
    if isBlobType column.databaseTypeName && !rawBlobs then
      .word ('0' :: 'x' :: bytes.flatMap hexByte)
    else .text (byteChars bytes)

theorem isWordChar_digitChar {n : Nat} (small : n < 16) : isWordChar (Nat.digitChar n) = true := by
  have all : ∀ m < 16, isWordChar (Nat.digitChar m) = true := by decide
  exact all n small

theorem hexValue_digitChar {n : Nat} (small : n < 16) : hexValue (Nat.digitChar n) = some n := by
  have all : ∀ m < 16, hexValue (Nat.digitChar m) = some m := by decide
  exact all n small

theorem byte_halves (byte : UInt8) : byte.toNat / 16 < 16 ∧ byte.toNat % 16 < 16 := by
  have small := byte.toNat_lt
  omega

theorem isWordChar_hex {bytes : List UInt8} :
    ∀ c ∈ 'x' :: bytes.flatMap hexByte, isWordChar c = true := by
  intro c member
  rcases List.mem_cons.mp member with rfl | inBytes
  · rfl
  · obtain ⟨byte, -, inByte⟩ := List.mem_flatMap.mp inBytes
    obtain ⟨highSmall, lowSmall⟩ := byte_halves byte
    rcases List.mem_pair.mp inByte with rfl | rfl
    · exact isWordChar_digitChar highSmall
    · exact isWordChar_digitChar lowSmall

theorem hexPairs_hex : hexPairs (bytes.flatMap hexByte) = some bytes := by
  induction bytes with
  | nil => rfl
  | cons byte rest ih =>
    obtain ⟨highSmall, lowSmall⟩ := byte_halves byte
    have whole : 16 * (byte.toNat / 16) + byte.toNat % 16 = byte.toNat := Nat.div_add_mod ..
    rw [List.flatMap_cons, hexByte, List.cons_append, List.cons_append, List.nil_append, hexPairs,
      hexValue_digitChar highSmall, hexValue_digitChar lowSmall, ih]
    change some (UInt8.ofNat (16 * (byte.toNat / 16) + byte.toNat % 16) :: rest) = _
    rw [whole, UInt8.ofNat_toNat]

theorem length_hex : (bytes.flatMap hexByte).length = 2 * bytes.length := by
  induction bytes with
  | nil => rfl
  | cons byte rest ih =>
    rw [List.flatMap_cons, List.length_append, ih, List.length_cons]
    change 2 + 2 * rest.length = _
    omega

/-- A hexadecimal literal with at least one byte. -/
theorem readHex_hex {bytes : List UInt8} (nonempty : bytes ≠ []) :
    readHex ('0' :: 'x' :: bytes.flatMap hexByte) = some bytes := by
  have even := length_hex bytes
  have pairs := hexPairs_hex bytes
  have some : 0 < bytes.length := List.length_pos_iff.mpr nonempty
  cases digits : bytes.flatMap hexByte with
  | nil =>
    rw [digits] at even
    change 0 = _ at even
    omega
  | cons digit rest =>
    rw [digits, List.length_cons] at even
    have odd : ¬ rest.length % 2 = 0 := by omega
    rw [readHex, if_neg odd, ← digits, pairs]

/-- An empty blob in hexadecimal is written as a word that is no literal. -/
def Denotes (rawBlobs : Bool) (column : Column) (cell : Cell) : Prop :=
  isBlobType column.databaseTypeName = true → rawBlobs = false → cell ≠ some []

theorem readCell_literalToken {rawBlobs : Bool} {column : Column} {cell : Cell}
    (denotes : Denotes rawBlobs column cell) :
    readCell (literalToken rawBlobs column cell) = some cell := by
  cases cell with
  | none => rfl
  | some bytes =>
    by_cases hex : (isBlobType column.databaseTypeName && !rawBlobs) = true
    · rw [literalToken, if_pos hex]
      rw [Bool.and_eq_true, Bool.not_eq_true'] at hex
      have nonempty : bytes ≠ [] := fun isNil => denotes hex.1 hex.2 (by rw [isNil])
      have notNull : isKeyword "NULL" ('0' :: 'x' :: bytes.flatMap hexByte) = false := by
        rw [isKeyword, decide_eq_false_iff_not]
        intro same
        exact absurd (List.cons.inj same).1 (by decide)
      rw [readCell, notNull, readHex_hex nonempty]
      rfl
    · rw [literalToken, if_neg hex, readCell, bytesOf_byteChars]

theorem toList_quote (quoted : String) :
    ("'" ++ quoted ++ "'").toList = '\'' :: quoted.toList ++ ['\''] := by
  rw [String.toList_append, String.toList_append]
  rfl

theorem whole_literal (rawBlobs : Bool) (column : Column) (cell : Cell) :
    Whole (literal rawBlobs column (cellValue cell)).toList
      (literalToken rawBlobs column cell) := by
  cases cell with
  | none =>
    have word : "NULL".toList = ['N', 'U', 'L', 'L'] := by decide
    rw [cellValue, literal, literalToken, word]
    exact whole_word rfl (List.all_eq_true.mp (by decide))
  | some bytes =>
    by_cases hex : (isBlobType column.databaseTypeName && !rawBlobs) = true
    · rw [cellValue, literal, if_pos hex, literalToken, if_pos hex, hexLiteral,
        String.toList_ofList]
      exact whole_word rfl isWordChar_hex
    · rw [cellValue, literal, if_neg hex, literalToken, if_neg hex]
      by_cases blob : isBlobType column.databaseTypeName = true
      · rw [if_pos blob, toList_quote, toList_escapeBlob, toList_byteText]
        exact whole_text escapes_blobEscape _
      · rw [if_neg blob, toList_quote, toList_escapeString, toList_byteText]
        exact whole_text escapes_stringEscape _

/-! ### Statements -/

variable {rawBlobs : Bool} {table : List UInt8} {columns : List Column}

theorem toList_quoteMySQLIdent (name : List UInt8) :
    (quoteMySQLIdent (byteText name)).toList = '`' :: doubled (byteChars name) ++ ['`'] := by
  rw [quoteMySQLIdent, String.toList_append, String.toList_append,
    toList_replaceAll_char _ '`' ['`', '`'], toList_byteText]
  rfl

def nameToken (name : List UInt8) : Token :=
  .name (byteChars name)

def insertWord : List Char := ['I', 'N', 'S', 'E', 'R', 'T']

def intoWord : List Char := ['I', 'N', 'T', 'O']

def valuesWord : List Char := ['V', 'A', 'L', 'U', 'E', 'S']

def headerTokens (table : List UInt8) (columns : List Column) : List Token :=
  .word insertWord :: .word intoWord :: nameToken table :: .symbol '(' ::
    (listTokens (columns.map fun column => nameToken column.name) ++ [Token.word valuesWord])

theorem whole_ident (name : List UInt8) :
    Whole (quoteMySQLIdent (byteText name)).toList (nameToken name) := by
  rw [toList_quoteMySQLIdent]
  exact whole_name _

theorem reads_columns (selects : columns ≠ []) :
    Reads (commaJoin (columns.map fun column => quoteMySQLIdent (byteText column.name)) ++ [')'])
      (listTokens (columns.map fun column => nameToken column.name)) := by
  have list := reads_list
    (columns.map fun column =>
      ((quoteMySQLIdent (byteText column.name)).toList, nameToken column.name))
    (by simpa using selects)
    (by
      intro part member
      obtain ⟨column, -, rfl⟩ := List.mem_map.mp member
      dsimp only
      exact whole_ident column.name)
  simp only [List.map_map, Function.comp_def] at list
  simp only [commaJoin, List.map_map, Function.comp_def]
  exact list

theorem insert_into_eq :
    "INSERT INTO ".toList = (insertWord ++ [' ']) ++ (intoWord ++ [' ']) := by
  decide

theorem values_eq : ") VALUES\n".toList = [')'] ++ ([' '] ++ (valuesWord ++ ['\n'])) := by
  decide

variable (table : List UInt8)

theorem header_pieces (columns : List Column) : header table columns =
      (insertWord ++ [' ']) ++ ((intoWord ++ [' ']) ++
        (((quoteMySQLIdent (byteText table)).toList ++ [' ']) ++ (['('] ++
          ((commaJoin (columns.map fun column => quoteMySQLIdent (byteText column.name)) ++ [')']) ++
            ([' '] ++ (valuesWord ++ ['\n'])))))) := by
  unfold header
  generalize (quoteMySQLIdent (byteText table)).toList = quoted
  generalize commaJoin _ = joined
  rw [insert_into_eq, values_eq]
  simp only [List.append_assoc, List.cons_append, List.nil_append]

theorem reads_header (selects : columns ≠ []) :
    Reads (header table columns) (headerTokens table columns) := by
  have insert := @whole_word 'I' ['N', 'S', 'E', 'R', 'T'] rfl
    (List.all_eq_true.mp (by decide)) ' ' [] closes_space
  have into := @whole_word 'I' ['N', 'T', 'O'] rfl
    (List.all_eq_true.mp (by decide)) ' ' [] closes_space
  have values := @whole_word 'V' ['A', 'L', 'U', 'E', 'S'] rfl
    (List.all_eq_true.mp (by decide)) '\n' [] closes_newline
  have name := whole_ident table ' ' [] closes_space
  rw [header_pieces]
  exact insert.append (into.append (name.append (reads_open.append
    ((reads_columns selects).append (closes_space.reads.append values)))))

/-- A row has a value for each column. -/
def Fits (columns : List Column) (row : List Cell) : Prop :=
  row.length = columns.length

def rowTokens (rawBlobs : Bool) (columns : List Column) (row : List Cell) : List Token :=
  List.zipWith (literalToken rawBlobs) columns row

def entries (rawBlobs : Bool) (columns : List Column) (row : List Cell) :
    List (Token × Cell) :=
  (rowTokens rawBlobs columns row).zip row

variable {row : List Cell}

theorem length_rowTokens (fits : Fits columns row) :
    (rowTokens rawBlobs columns row).length = row.length := by
  rw [rowTokens, List.length_zipWith, fits, Nat.min_self]

theorem map_fst_entries (fits : Fits columns row) :
    (entries rawBlobs columns row).map Prod.fst = rowTokens rawBlobs columns row :=
  List.map_fst_zip (Nat.le_of_eq (length_rowTokens fits))

theorem map_snd_entries (fits : Fits columns row) :
    (entries rawBlobs columns row).map Prod.snd = row :=
  List.map_snd_zip (Nat.le_of_eq (length_rowTokens fits).symm)

/-- Every value of the row is denoted by its literal. -/
def AllDenoted (rawBlobs : Bool) (columns : List Column) (row : List Cell) : Prop :=
  ∀ pair ∈ columns.zip row, Denotes rawBlobs pair.1 pair.2

theorem readsCells_entries (denoted : AllDenoted rawBlobs columns row) :
    ReadsCells (entries rawBlobs columns row) := by
  induction columns generalizing row with
  | nil => exact fun entry member => absurd member List.not_mem_nil
  | cons column others ih =>
    cases row with
    | nil => exact fun entry member => absurd member List.not_mem_nil
    | cons cell cells =>
      intro entry member
      rcases List.mem_cons.mp member with rfl | inRest
      · exact readCell_literalToken (denoted (column, cell) List.mem_cons_self)
      · exact ih
          (List.forall_mem_cons.mp denoted).2 entry inRest

/-- The literals of a row with the tokens they are read as. -/
def rowParts (rawBlobs : Bool) (columns : List Column) (row : List Cell) :
    List (List Char × Token) :=
  List.zipWith (fun column cell => ((literal rawBlobs column (cellValue cell)).toList,
    literalToken rawBlobs column cell)) columns row

theorem whole_rowParts (row : List Cell) :
    ∀ part ∈ rowParts rawBlobs columns row, Whole part.1 part.2 := by
  induction columns generalizing row with
  | nil => exact fun part member => absurd member List.not_mem_nil
  | cons column others ih =>
    cases row with
    | nil => exact fun part member => absurd member List.not_mem_nil
    | cons cell cells =>
      intro part member
      rcases List.mem_cons.mp member with rfl | inRest
      · exact whole_literal rawBlobs column cell
      · exact ih cells part inRest

theorem rowText_eq (row : List Cell) : rowText rawBlobs columns (row.map cellValue) =
      '(' :: [',', ' '].intercalate ((rowParts rawBlobs columns row).map Prod.fst) ++ [')'] := by
  rw [rowText, commaJoin, literals, rowParts, List.map_zipWith, List.map_zipWith,
    List.zipWith_map_right]

theorem rowParts_ne_nil (selects : columns ≠ []) (fits : Fits columns row) :
    rowParts rawBlobs columns row ≠ [] := by
  rw [← List.length_pos_iff, rowParts, List.length_zipWith, fits, Nat.min_self]
  exact List.length_pos_iff.mpr selects

theorem map_snd_rowParts (row : List Cell) :
    (rowParts rawBlobs columns row).map Prod.snd = rowTokens rawBlobs columns row := by
  rw [rowParts, List.map_zipWith]
  rfl

/-- The values of the rows as the driver hands them out. -/
def values (rows : List (List Cell)) : List (List Value) :=
  rows.map (List.map cellValue)

theorem reads_statement (selects : columns ≠ []) {rows : List (List Cell)}
    (nonempty : rows ≠ []) (fits : ∀ row ∈ rows, Fits columns row) :
    Reads (statement rawBlobs table columns (values rows))
      (headerTokens table columns ++
        .symbol '(' :: rowsTokens (rows.map (rowTokens rawBlobs columns))) := by
  have rowsRead := reads_rows (rows.map (rowParts rawBlobs columns)) (by simpa using nonempty)
    (by
      intro parts member
      obtain ⟨row, isRow, rfl⟩ := List.mem_map.mp member
      exact ⟨rowParts_ne_nil selects (fits row isRow), whole_rowParts row⟩)
  have texts : (values rows).map (rowText rawBlobs columns) =
      (rows.map (rowParts rawBlobs columns)).map fun parts =>
        '(' :: [',', ' '].intercalate (parts.map Prod.fst) ++ [')'] := by
    rw [values, List.map_map, List.map_map]
    exact List.map_congr_left fun row _ => rowText_eq row
  have tokens : (rows.map (rowParts rawBlobs columns)).map (List.map Prod.snd) =
      rows.map (rowTokens rawBlobs columns) := by
    rw [List.map_map]
    exact List.map_congr_left fun row _ => map_snd_rowParts row
  rw [tokens] at rowsRead
  rw [statement, texts]
  exact (reads_header table selects).append rowsRead

/-- A statement is read as the `INSERT` it was written for. -/
theorem readInsert_statement (selects : columns ≠ [])
    {rows : List (List Cell)} (nonempty : rows ≠ []) (fits : ∀ row ∈ rows, Fits columns row)
    (denoted : ∀ row ∈ rows, AllDenoted rawBlobs columns row) :
    readInsert (statement rawBlobs table columns (values rows)) =
      some ⟨table, columns.map Column.name, rows⟩ := by
  have scanned : tokenize (statement rawBlobs table columns (values rows)) =
      some (headerTokens table columns ++
        .symbol '(' :: rowsTokens (rows.map (rowTokens rawBlobs columns))) := by
    rw [tokenize, reads_statement table selects nonempty fits []]
    rfl
  have names := readNames_list (columns.map fun column => byteChars column.name)
    (by simpa using selects)
    (.word valuesWord :: .symbol '(' :: rowsTokens (rows.map (rowTokens rawBlobs columns)))
  have rowsBack := readRows_rowsTokens (rows.map (entries rawBlobs columns))
    (by simpa using nonempty)
    (by
      intro row member
      obtain ⟨source, isRow, rfl⟩ := List.mem_map.mp member
      refine ⟨fun isNil => ?_, readsCells_entries (denoted source isRow)⟩
      have noLength := congrArg List.length isNil
      rw [entries, List.length_zip, length_rowTokens (fits source isRow), Nat.min_self,
        fits source isRow, List.length_nil] at noLength
      exact selects (List.length_eq_zero_iff.mp noLength))
  have tokens : (rows.map (entries rawBlobs columns)).map (List.map Prod.fst) =
      rows.map (rowTokens rawBlobs columns) := by
    rw [List.map_map]
    exact List.map_congr_left fun row isRow => map_fst_entries (fits row isRow)
  have cells : (rows.map (entries rawBlobs columns)).map (List.map Prod.snd) = rows := by
    rw [List.map_map]
    conv => rhs; rw [← List.map_id rows]
    exact List.map_congr_left fun row isRow => map_snd_entries (fits row isRow)
  rw [tokens, cells] at rowsBack
  have columnsBack : (columns.map fun column => byteChars column.name).map bytesOf =
      columns.map Column.name := by
    rw [List.map_map]
    exact List.map_congr_left fun column _ => bytesOf_byteChars column.name
  rw [columnsBack] at names
  simp only [List.map_map, Function.comp_def] at names
  have isInsert : isKeyword "INSERT" insertWord = true := by decide
  have isInto : isKeyword "INTO" intoWord = true := by decide
  have isValues : isKeyword "VALUES" valuesWord = true := by decide
  rw [readInsert, scanned, Option.bind_some]
  simp only [headerTokens, List.cons_append, List.append_assoc, List.nil_append, nameToken,
    readTokens, names, isInsert, isInto, isValues, Bool.and_self, if_true, rowsBack,
    bytesOf_byteChars, Option.map_some]

end DbBackup.Engine.Mysql.RowsRead
