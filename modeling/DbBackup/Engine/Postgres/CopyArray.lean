import DbBackup.Lib.ArrayLiteral
import DbBackup.Lib.GoString

/-!
Owns `encodeCopyArrayRaw`, `needsArrayQuoting` and `quoteArrayElement` of
`internal/database/engine/postgres/postgres.go`, on arrays of text: the leaves that
reflection finds are strings or nil.

Contract: every array is written as a literal of one dimension, because a sub-array is
quoted like a string. PostgreSQL reads back the array exactly when no element is a
sub-array (`survives_iff`).
-/

namespace DbBackup.Engine.Postgres.CopyArray

open Lib.ArrayLiteral Lib.GoString

/-! ### The encoder -/

/-- `isString` is the type test on the element itself. -/
def needsArrayQuoting (s : String) (isString : Bool) : Bool :=
  isString || s = "" || s = "NULL" ||
    s.toList.any fun c => ['\x7b', '\x7d', ',', '"', '\\', ' ', '\t', '\n', '\r'].contains c

def quoteArrayElement (s : String) : String :=
  "\"" ++ replaceAll (replaceAll s "\\" "\\\\") "\"" "\\\"" ++ "\""

/-- `"{" + strings.Join(elems, ",") + "}"`. -/
def joinElements (elems : List String) : String :=
  String.ofList ('\x7b' :: [','].intercalate (elems.map String.toList) ++ ['\x7d'])

/-- `encodeCopyValue` returns a string as it is. -/
def encodeText (s : String) : String :=
  if needsArrayQuoting s true then quoteArrayElement s else s

mutual

def encodeElement : Element → String
  | .null => "NULL"
  | .text chars => encodeText (String.ofList chars)
  | .array items => quoteArrayElement (joinElements (encodeElements items))

def encodeElements : List Element → List String
  | [] => []
  | item :: rest => encodeElement item :: encodeElements rest

end

def encodeCopyArrayRaw (items : List Element) : String :=
  joinElements (encodeElements items)

/-- The array comes back from its literal, sub-arrays as sub-arrays. -/
def Survives (items : List Element) : Prop :=
  readArray (encodeCopyArrayRaw items).toList = some items

/-! ### What is written -/

theorem toList_quoteArrayElement (s : String) : (quoteArrayElement s).toList = quoted s.toList := by
  rw [quoteArrayElement, String.toList_append, String.toList_append, toList_replaceAll_char _ '"',
    toList_replaceAll_char _ '\\', List.flatMap_assoc]
  have each : ∀ c : Char, ((if c = '\\' then ['\\', '\\'] else [c]).flatMap
      fun d => if d = '"' then ['\\', '"'] else [d]) = escapeChar c := by
    intro c
    by_cases isSlash : c = '\\'
    · subst isSlash
      decide
    · rw [escapeChar, if_neg isSlash, if_neg isSlash, List.flatMap_singleton]
  simp only [each]
  rfl

/-- A sub-array is written as the string of its literal. -/
def asText : Element → Element
  | .array items => .text (encodeCopyArrayRaw items).toList
  | item => item

variable (item : Element)

theorem isFlat_asText : IsFlat (asText item) := by
  cases item with
  | null => trivial
  | text _ => trivial
  | array _ => trivial

theorem toList_encodeElement :
    (encodeElement item).toList = flatText (asText item) := by
  cases item with
  | null => rfl
  | text chars =>
    have quotes : needsArrayQuoting (String.ofList chars) true = true := rfl
    rw [encodeElement, encodeText, if_pos quotes, toList_quoteArrayElement,
      String.toList_ofList]
    rfl
  | array items =>
    rw [encodeElement, toList_quoteArrayElement]
    rfl

variable (items : List Element)

theorem encodeElements_eq_map :
    encodeElements items = items.map encodeElement := by
  induction items with
  | nil => rfl
  | cons item rest ih =>
    rw [encodeElements, ih, List.map_cons]

theorem toList_encodeCopyArrayRaw :
    (encodeCopyArrayRaw items).toList = literal (items.map asText) := by
  rw [encodeCopyArrayRaw, joinElements, String.toList_ofList, encodeElements_eq_map, literal,
    List.map_map, List.map_map]
  simp only [Function.comp_def, toList_encodeElement]

/-- Whatever the array, the literal is read as one dimension of strings and nulls. -/
theorem readArray_encodeCopyArrayRaw :
    readArray (encodeCopyArrayRaw items).toList = some (items.map asText) := by
  rw [toList_encodeCopyArrayRaw]
  refine readArray_literal ?_
  intro item member
  obtain ⟨source, -, rfl⟩ := List.mem_map.mp member
  exact isFlat_asText source

theorem asText_eq_iff : asText item = item ↔ IsFlat item := by
  cases item with
  | null => exact iff_of_true rfl trivial
  | text _ => exact iff_of_true rfl trivial
  | array _ => exact iff_of_false (fun same => nomatch same) id

theorem survives_iff (items : List Element) : Survives items ↔ ∀ item ∈ items, IsFlat item := by
  rw [Survives, readArray_encodeCopyArrayRaw, Option.some.injEq]
  calc items.map asText = items
      ↔ items.map asText = items.map id := by rw [List.map_id]
    _ ↔ ∀ item ∈ items, asText item = item := List.map_inj_left
    _ ↔ ∀ item ∈ items, IsFlat item := by simp only [asText_eq_iff]

/-- A sub-array with the strings `a` and `b`. -/
def subArray : Element :=
  .array [.text ['a'], .text ['b']]

/-- `[[a b]]` is written with a quoted element, which is read as one string. -/
theorem subArray_read_as_string :
    encodeCopyArrayRaw [subArray] = "\x7b\"\x7b\\\"a\\\",\\\"b\\\"\x7d\"\x7d" ∧
      ¬ Survives [subArray] := by
  refine ⟨by decide +kernel, ?_⟩
  rw [Survives, readArray_encodeCopyArrayRaw]
  intro same
  have first := (List.cons.inj (Option.some.inj same)).1
  exact nomatch first

end DbBackup.Engine.Postgres.CopyArray
