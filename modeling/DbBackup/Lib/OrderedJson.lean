import DbBackup.Lib.FieldOrder
import DbBackup.Lib.GoString

/-!
Owns a JSON text of ordered documents, over any text for the scalars that ends
where it is read to its end.

Contract: the text of a value is on one line and tells where it ends, so that a
value is read off the front of a text in one way only (`print_inj`), and so is a
list of documents between separators (`intercalate_inj`).
-/

set_option linter.all false

namespace DbBackup.Lib.OrderedJson

open Lib.FieldOrder

/-- Texts of scalars: none is the beginning of another, and the first character
tells a scalar from a string, a list and a document. -/
structure ScalarCode (σ : Type) where
  print : σ → List Char
  print_inj : ∀ a b rest other, print a ++ rest = print b ++ other → a = b ∧ rest = other
  lead : σ → Char
  print_lead : ∀ a, (print a).head? = some (lead a)
  lead_plain : ∀ a, lead a ≠ '"' ∧ lead a ≠ '[' ∧ lead a ≠ ']' ∧ lead a ≠ '\x7b'
  print_oneLine : ∀ a, '\n' ∉ print a

/-! ### Strings -/

def escape (c : Char) : List Char :=
  if c = '"' then ['\\', '"'] else if c = '\\' then ['\\', '\\']
  else if c = '\n' then ['\\', 'n'] else [c]

def escapeAll : List Char → List Char
  | [] => ['"']
  | c :: rest => escape c ++ escapeAll rest

def quote (text : String) : List Char := '"' :: escapeAll text.toList

theorem escape_inj {c d : Char} {rest other : List Char}
    (same : escape c ++ rest = escape d ++ other) : c = d ∧ rest = other := by
  unfold escape at same
  grind

theorem escape_ne_end {c : Char} {rest other : List Char} : escape c ++ rest ≠ '"' :: other := by
  unfold escape
  grind

theorem escapeAll_inj {text words rest other : List Char}
    (same : escapeAll text ++ rest = escapeAll words ++ other) : text = words ∧ rest = other := by
  induction text generalizing words with
  | nil =>
    cases words with
    | nil => exact ⟨rfl, (List.cons.inj same).2⟩
    | cons d words =>
      rw [escapeAll, escapeAll, List.append_assoc] at same
      exact absurd same.symm escape_ne_end
  | cons c text ih =>
    cases words with
    | nil =>
      rw [escapeAll, escapeAll, List.append_assoc] at same
      exact absurd same escape_ne_end
    | cons d words =>
      rw [escapeAll, escapeAll, List.append_assoc, List.append_assoc] at same
      obtain ⟨sameChar, sameRest⟩ := escape_inj same
      obtain ⟨sameText, sameOther⟩ := ih sameRest
      exact ⟨by rw [sameChar, sameText], sameOther⟩

theorem quote_inj {text words : String} {rest other : List Char}
    (same : quote text ++ rest = quote words ++ other) : text = words ∧ rest = other := by
  obtain ⟨sameText, sameRest⟩ := escapeAll_inj (List.cons.inj same).2
  exact ⟨String.toList_injective sameText, sameRest⟩

theorem oneLine_quote (text : String) : '\n' ∉ quote text := by
  have escaped : ∀ chars, '\n' ∉ escapeAll chars := by
    intro chars
    induction chars with
    | nil => decide
    | cons c chars ih =>
      rw [escapeAll, List.mem_append, not_or]
      refine ⟨?_, ih⟩
      unfold escape
      grind
  rw [quote, List.mem_cons, not_or]
  exact ⟨by decide, escaped _⟩

/-! ### Values -/

variable {σ : Type} (code : ScalarCode σ)

mutual

def print : Value σ → List Char
  | .text value => quote value
  | .scalar value => code.print value
  | .array [] => ['[', ']']
  | .array (item :: rest) => '[' :: (print item ++ printItems rest)
  | .document [] => ['\x7b', '\x7d']
  | .document ((name, value) :: rest) =>
    '\x7b' :: (quote name ++ ':' :: (print value ++ printFields rest))

def printItems : List (Value σ) → List Char
  | [] => [']']
  | item :: rest => ',' :: (print item ++ printItems rest)

def printFields : List (String × Value σ) → List Char
  | [] => ['\x7d']
  | (name, value) :: rest => ',' :: (quote name ++ ':' :: (print value ++ printFields rest))

end

/-- The text of a value tells the value and where it ends. -/
def Legible (value : Value σ) : Prop :=
  ∀ word rest other, print code value ++ rest = print code word ++ other →
    value = word ∧ rest = other

/-- The character a text begins with tells the kind of the value. -/
def lead : Value σ → Char
  | .text _ => '"'
  | .scalar value => code.lead value
  | .array _ => '['
  | .document _ => '\x7b'

variable (value : Value σ)

theorem print_lead : (print code value).head? = some (lead code value) := by
  match value with
  | .text value => rw [print]; rfl
  | .scalar value => rw [print]; exact code.print_lead value
  | .array [] => rw [print]; rfl
  | .array (item :: rest) => rw [print]; rfl
  | .document [] => rw [print]; rfl
  | .document ((name, value) :: rest) => rw [print]; rfl

variable {code}

theorem lead_eq {value word : Value σ} {rest other : List Char}
    (same : print code value ++ rest = print code word ++ other) :
    lead code value = lead code word := by
  have heads := congrArg List.head? same
  rw [List.head?_append, List.head?_append, print_lead, print_lead] at heads
  exact Option.some.inj heads

theorem printItems_inj {items : List (Value σ)} (each : ∀ item ∈ items, Legible code item)
    {words : List (Value σ)} {rest other : List Char}
    (same : printItems code items ++ rest = printItems code words ++ other) :
    items = words ∧ rest = other := by
  induction items generalizing words with
  | nil =>
    cases words with
    | nil =>
      rw [printItems] at same
      exact ⟨rfl, (List.cons.inj same).2⟩
    | cons word words =>
      rw [printItems, printItems] at same
      exact absurd (List.cons.inj same).1 (by decide)
  | cons item items ih =>
    cases words with
    | nil =>
      rw [printItems, printItems] at same
      exact absurd (List.cons.inj same).1 (by decide)
    | cons word words =>
      rw [printItems, printItems, List.cons_append, List.cons_append] at same
      have tails := (List.cons.inj same).2
      rw [List.append_assoc, List.append_assoc] at tails
      obtain ⟨rfl, sameRest⟩ := each item List.mem_cons_self _ _ _ tails
      obtain ⟨rfl, sameOther⟩ := ih
        (List.forall_mem_cons.mp each).2 sameRest
      exact ⟨rfl, sameOther⟩

/-- One field and what follows it. -/
theorem field_inj {name key : String} {value word : Value σ} (legible : Legible code value)
    {rest other more others : List Char}
    (same : quote name ++ ':' :: (print code value ++ rest) ++ more =
      quote key ++ ':' :: (print code word ++ other) ++ others) :
    name = key ∧ value = word ∧ rest ++ more = other ++ others := by
  rw [List.append_assoc, List.append_assoc, List.cons_append, List.cons_append] at same
  obtain ⟨sameName, afterName⟩ := quote_inj same
  have afterColon := (List.cons.inj afterName).2
  rw [List.append_assoc, List.append_assoc] at afterColon
  obtain ⟨sameValue, sameRest⟩ := legible _ _ _ afterColon
  exact ⟨sameName, sameValue, sameRest⟩

theorem printFields_inj {fields : List (String × Value σ)}
    (each : ∀ field ∈ fields, Legible code field.2) {words : List (String × Value σ)}
    {rest other : List Char}
    (same : printFields code fields ++ rest = printFields code words ++ other) :
    fields = words ∧ rest = other := by
  induction fields generalizing words with
  | nil =>
    cases words with
    | nil =>
      rw [printFields] at same
      exact ⟨rfl, (List.cons.inj same).2⟩
    | cons word words =>
      rw [printFields, printFields] at same
      exact absurd (List.cons.inj same).1 (by decide)
  | cons field fields ih =>
    cases words with
    | nil =>
      rw [printFields, printFields] at same
      exact absurd (List.cons.inj same).1 (by decide)
    | cons word words =>
      rw [printFields, printFields] at same
      obtain ⟨sameName, sameValue, sameRest⟩ :=
        field_inj (each field List.mem_cons_self) (List.cons.inj same).2
      obtain ⟨rfl, sameOther⟩ := ih
        (List.forall_mem_cons.mp each).2 sameRest
      exact ⟨by rw [Prod.ext sameName sameValue], sameOther⟩

theorem lead_ne_close : lead code value ≠ ']' := by
  cases value with
  | text value => exact (by decide : '"' ≠ ']')
  | scalar value => exact (code.lead_plain value).2.2.1
  | array items => exact (by decide : '[' ≠ ']')
  | document fields => exact (by decide : '\x7b' ≠ ']')

theorem print_ne_close (rest other : List Char) : print code value ++ rest ≠ ']' :: other := by
  intro same
  have heads := congrArg List.head? same
  rw [List.head?_append, print_lead] at heads
  exact lead_ne_close value (Option.some.inj heads)

theorem print_array_inj {items words : List (Value σ)} (each : ∀ item ∈ items, Legible code item)
    {rest other : List Char}
    (same : print code (.array items) ++ rest = print code (.array words) ++ other) :
    items = words ∧ rest = other := by
  match items, words with
  | [], [] =>
    rw [print] at same
    exact ⟨rfl, (List.cons.inj (List.cons.inj same).2).2⟩
  | [], word :: words =>
    rw [print, print, List.cons_append] at same
    have tails := (List.cons.inj same).2
    rw [List.append_eq, List.append_assoc] at tails
    exact absurd tails.symm (print_ne_close _ _ _)
  | item :: items, [] =>
    rw [print, print, List.cons_append] at same
    have tails := (List.cons.inj same).2
    rw [List.append_assoc] at tails
    exact absurd tails (print_ne_close _ _ _)
  | item :: items, word :: words =>
    rw [print, print, List.cons_append, List.cons_append] at same
    have tails := (List.cons.inj same).2
    rw [List.append_assoc, List.append_assoc] at tails
    obtain ⟨rfl, sameRest⟩ := each item List.mem_cons_self _ _ _ tails
    obtain ⟨rfl, sameOther⟩ := printItems_inj
      (List.forall_mem_cons.mp each).2 sameRest
    exact ⟨rfl, sameOther⟩

theorem print_document_inj {fields words : List (String × Value σ)}
    (each : ∀ field ∈ fields, Legible code field.2) {rest other : List Char}
    (same : print code (.document fields) ++ rest = print code (.document words) ++ other) :
    fields = words ∧ rest = other := by
  match fields, words with
  | [], [] =>
    rw [print] at same
    exact ⟨rfl, (List.cons.inj (List.cons.inj same).2).2⟩
  | [], (key, word) :: words =>
    rw [print, print, List.cons_append] at same
    exact absurd (List.cons.inj (List.cons.inj same).2).1 (by decide)
  | (name, value) :: fields, [] =>
    rw [print, print, List.cons_append] at same
    exact absurd (List.cons.inj (List.cons.inj same).2).1 (by decide)
  | (name, value) :: fields, (key, word) :: words =>
    rw [print, print, List.cons_append, List.cons_append] at same
    obtain ⟨rfl, rfl, sameRest⟩ :=
      field_inj (each (name, value) List.mem_cons_self) (List.cons.inj same).2
    obtain ⟨rfl, sameOther⟩ := printFields_inj
      (List.forall_mem_cons.mp each).2 sameRest
    exact ⟨rfl, sameOther⟩

theorem print_inj : Legible code value := by
  induction value using Value.induct with
  | text value =>
    intro word rest other same
    have kind := lead_eq same
    cases word with
    | text word =>
      rw [print, print] at same
      obtain ⟨rfl, sameRest⟩ := quote_inj same
      exact ⟨rfl, sameRest⟩
    | scalar word => exact absurd kind.symm (code.lead_plain word).1
    | array words => exact absurd kind (by decide : '"' ≠ '[')
    | document words => exact absurd kind (by decide : '"' ≠ '\x7b')
  | scalar value =>
    intro word rest other same
    have kind := lead_eq same
    cases word with
    | text word => exact absurd kind (code.lead_plain value).1
    | scalar word =>
      rw [print, print] at same
      obtain ⟨rfl, sameRest⟩ := code.print_inj _ _ _ _ same
      exact ⟨rfl, sameRest⟩
    | array words => exact absurd kind (code.lead_plain value).2.1
    | document words => exact absurd kind (code.lead_plain value).2.2.2
  | array items ih =>
    intro word rest other same
    have kind := lead_eq same
    cases word with
    | text word => exact absurd kind (by decide : '[' ≠ '"')
    | scalar word => exact absurd kind.symm (code.lead_plain word).2.1
    | array words =>
      obtain ⟨rfl, sameRest⟩ := print_array_inj ih same
      exact ⟨rfl, sameRest⟩
    | document words => exact absurd kind (by decide : '[' ≠ '\x7b')
  | document fields ih =>
    intro word rest other same
    have kind := lead_eq same
    cases word with
    | text word => exact absurd kind (by decide : '\x7b' ≠ '"')
    | scalar word => exact absurd kind.symm (code.lead_plain word).2.2.2
    | array words => exact absurd kind (by decide : '\x7b' ≠ '[')
    | document words =>
      obtain ⟨rfl, sameRest⟩ := print_document_inj ih same
      exact ⟨rfl, sameRest⟩

/-! ### Lines -/

theorem oneLine_printItems {items : List (Value σ)} (each : ∀ item ∈ items, '\n' ∉ print code item) :
    '\n' ∉ printItems code items := by
  induction items with
  | nil => rw [printItems]; decide
  | cons item items ih =>
    rw [printItems, List.mem_cons, List.mem_append, not_or, not_or]
    exact ⟨by decide, each item List.mem_cons_self, ih (List.forall_mem_cons.mp each).2⟩

theorem oneLine_field {name : String} {value rest : List Char} (valueLine : '\n' ∉ value)
    (restLine : '\n' ∉ rest) : '\n' ∉ quote name ++ ':' :: (value ++ rest) := by
  rw [List.mem_append, List.mem_cons, List.mem_append, not_or, not_or, not_or]
  exact ⟨oneLine_quote name, by decide, valueLine, restLine⟩

theorem oneLine_printFields {fields : List (String × Value σ)}
    (each : ∀ field ∈ fields, '\n' ∉ print code field.2) : '\n' ∉ printFields code fields := by
  induction fields with
  | nil => rw [printFields]; decide
  | cons field fields ih =>
    rw [printFields, List.mem_cons, not_or]
    exact ⟨by decide, oneLine_field (each field List.mem_cons_self)
      (ih (List.forall_mem_cons.mp each).2)⟩

theorem oneLine_print : '\n' ∉ print code value := by
  induction value using Value.induct with
  | text value => rw [print]; exact oneLine_quote value
  | scalar value => rw [print]; exact code.print_oneLine value
  | array items ih =>
    match items with
    | [] => rw [print]; decide
    | item :: rest =>
      rw [print, List.mem_cons, List.mem_append, not_or, not_or]
      exact ⟨by decide, ih item List.mem_cons_self,
        oneLine_printItems (List.forall_mem_cons.mp ih).2⟩
  | document fields ih =>
    match fields with
    | [] => rw [print]; decide
    | (name, value) :: rest =>
      rw [print, List.mem_cons, not_or]
      exact ⟨by decide, oneLine_field (ih (name, value) List.mem_cons_self)
        (oneLine_printFields (List.forall_mem_cons.mp ih).2)⟩

theorem getLast_printFields (fields : List (String × Value σ)) :
    (printFields code fields).getLast? = some '\x7d' := by
  induction fields with
  | nil => rw [printFields]; rfl
  | cons field fields ih =>
    have shape : printFields code (field :: fields) =
        (',' :: quote field.1 ++ ':' :: print code field.2) ++ printFields code fields := by
      rw [printFields]
      simp
    rw [shape, List.getLast?_append, ih, Option.some_or]

theorem getLast_print_document (fields : List (String × Value σ)) :
    (print code (.document fields)).getLast? = some '\x7d' := by
  match fields with
  | [] => rw [print]; rfl
  | (name, value) :: rest =>
    have shape : print code (.document ((name, value) :: rest)) =
        ('\x7b' :: quote name ++ ':' :: print code value) ++ printFields code rest := by
      rw [print]
      simp
    rw [shape, List.getLast?_append, getLast_printFields, Option.some_or]

/-! ### Lists of documents -/

/-- Texts between separators are read in one way. -/
theorem intercalate_inj {α : Type} {text : α → String} {joiner : String}
    (readable : ∀ a b rest other, (text a).toList ++ rest = (text b).toList ++ other →
      a = b ∧ rest = other) (joins : joiner.toList ≠ []) {items words : List α}
    (someItems : items ≠ []) (someWords : words ≠ [])
    (same : joiner.intercalate (items.map text) = joiner.intercalate (words.map text)) :
    items = words := by
  induction items generalizing words with
  | nil => exact absurd rfl someItems
  | cons item items ih =>
    match items, words with
    | items, [] => exact absurd rfl someWords
    | [], [word] =>
      simp only [List.map_cons, List.map_nil, String.intercalate_singleton] at same
      obtain ⟨rfl, -⟩ := readable item word [] [] (by rw [same])
      rfl
    | [], word :: next :: words =>
      have chars := congrArg String.toList same
      simp only [List.map_cons, List.map_nil, String.intercalate_singleton,
        String.intercalate_cons_cons, String.toList_append, List.append_assoc] at chars
      obtain ⟨-, nothing⟩ := readable item word [] _ ((List.append_nil _).trans chars)
      exact absurd (List.append_eq_nil_iff.mp nothing.symm).1 joins
    | more :: items, [word] =>
      have chars := congrArg String.toList same
      simp only [List.map_cons, List.map_nil, String.intercalate_singleton,
        String.intercalate_cons_cons, String.toList_append, List.append_assoc] at chars
      obtain ⟨-, nothing⟩ := readable item word _ [] (chars.trans (List.append_nil _).symm)
      exact absurd (List.append_eq_nil_iff.mp nothing).1 joins
    | more :: items, word :: next :: words =>
      have chars := congrArg String.toList same
      simp only [List.map_cons, String.intercalate_cons_cons, String.toList_append,
        List.append_assoc] at chars
      obtain ⟨rfl, tails⟩ := readable item word _ _ chars
      have rests := List.append_cancel_left tails
      rw [← List.map_cons, ← List.map_cons] at rests
      rw [ih (by simp) (by simp) (String.toList_injective rests)]

/-! ### Reading back -/

open Classical in
/-- The inverse of a text, where it has one. -/
noncomputable def readBack {α : Type} (text : α → String) (line : String) : Option α :=
  if written : ∃ a, text a = line then some written.choose else none

theorem readBack_text {α : Type} {text : α → String} (injective : Function.Injective text) (a : α) :
    readBack text (text a) = some a := by
  have written : ∃ b, text b = text a := ⟨a, rfl⟩
  rw [readBack, dif_pos written, injective written.choose_spec]

theorem text_of_readBack {α : Type} {text : α → String} {line : String} {a : α}
    (read : readBack text line = some a) : text a = line := by
  unfold readBack at read
  split at read
  · rename_i written
    rw [← Option.some.inj read]
    exact written.choose_spec
  · exact absurd read (by simp)

end DbBackup.Lib.OrderedJson
