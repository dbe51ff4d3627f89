import Mathlib.Data.List.Basic

/-!
Owns array literals as a PostgreSQL server reads them: nested braces, quoted elements
with backslash escapes, bare elements, and the bare word that stands for null.

Contract: `readArray` gives the elements of a literal. A literal with bounds in front
(`[1:3]=`) is left out. Sub-arrays of different shapes are not an array.
-/

namespace DbBackup.Lib.ArrayLiteral

inductive Element where
  | null
  | text (chars : List Char)
  | array (items : List Element)

/-! ### Shape -/

mutual

/-- The lengths of an element's dimensions; `none` where sub-arrays differ in shape. -/
def Element.dimensions : Element → Option (List Nat)
  | .null => some []
  | .text _ => some []
  | .array items => (commonDimensions items).map (items.length :: ·)

def commonDimensions : List Element → Option (List Nat)
  | [] => some []
  | [item] => item.dimensions
  | item :: rest =>
    match item.dimensions, commonDimensions rest with
    | some own, some others => if own = others then some own else none
    | _, _ => none

end

def IsFlat : Element → Prop
  | .array _ => False
  | _ => True

/-! ### The reader -/

def isBlank (c : Char) : Bool :=
  c = ' ' || c = '\t' || c = '\n' || c = '\r' || c = '\x0b' || c = '\x0c'

/-- Where the reader stands inside the innermost open array. `pending` holds the blanks
after a bare element that only count if more of it follows. -/
inductive Mode where
  | first
  | next
  | quoted (chars : List Char)
  | quotedEscape (chars : List Char)
  | bare (chars pending : List Char) (escapes : Bool)
  | bareEscape (chars : List Char)
  | after

inductive State where
  | before
  | inside (items : List Element) (outer : List (List Element)) (mode : Mode)
  | closed (items : List Element)

def isNullWord (chars : List Char) : Bool :=
  chars.map Char.toLower = ['n', 'u', 'l', 'l']

def bareElement (chars : List Char) (escapes : Bool) : Element :=
  if !escapes && isNullWord chars then .null else .text chars

/-- A comma or a closing brace after a whole element. -/
def delimit (items : List Element) (outer : List (List Element)) (c : Char) : Option State :=
  if c = ',' then some (.inside items outer .next)
  else if c = '\x7d' then
    match outer with
    | [] => some (.closed items)
    | above :: rest => some (.inside (above ++ [.array items]) rest .after)
  else none

/-- A character where an element may begin. -/
def begin (items : List Element) (outer : List (List Element)) (mode : Mode) (c : Char) :
    Option State :=
  if isBlank c then some (.inside items outer mode)
  else if c = '\x7b' then some (.inside [] (items :: outer) .first)
  else if c = '"' then some (.inside items outer (.quoted []))
  else if c = '\\' then some (.inside items outer (.bareEscape []))
  else if c = ',' ∨ c = '\x7d' then none
  else some (.inside items outer (.bare [c] [] false))

def step : State → Char → Option State
  | .before, c =>
    if isBlank c then some .before
    else if c = '\x7b' then some (.inside [] [] .first)
    else none
  | .inside items outer .first, c =>
    if c = '\x7d' then delimit items outer c else begin items outer .first c
  | .inside items outer .next, c => begin items outer .next c
  | .inside items outer (.quoted chars), c =>
    if c = '\\' then some (.inside items outer (.quotedEscape chars))
    else if c = '"' then some (.inside (items ++ [Element.text chars]) outer .after)
    else some (.inside items outer (.quoted (chars ++ [c])))
  | .inside items outer (.quotedEscape chars), c =>
    some (.inside items outer (.quoted (chars ++ [c])))
  | .inside items outer (.bare chars pending escapes), c =>
    if c = ',' ∨ c = '\x7d' then delimit (items ++ [bareElement chars escapes]) outer c
    else if c = '\x7b' ∨ c = '"' then none
    else if c = '\\' then some (.inside items outer (.bareEscape (chars ++ pending)))
    else if isBlank c then some (.inside items outer (.bare chars (pending ++ [c]) escapes))
    else some (.inside items outer (.bare (chars ++ pending ++ [c]) [] escapes))
  | .inside items outer (.bareEscape chars), c =>
    some (.inside items outer (.bare (chars ++ [c]) [] true))
  | .inside items outer .after, c =>
    if isBlank c then some (.inside items outer .after) else delimit items outer c
  | .closed items, c => if isBlank c then some (.closed items) else none

def State.result : State → Option (List Element)
  | .closed items => if (commonDimensions items).isSome then some items else none
  | _ => none

def readArray (text : List Char) : Option (List Element) :=
  (text.foldlM step .before).bind State.result

/-! ### Writing -/

/-- The escapes of a quoted element. -/
def escapeChar (c : Char) : List Char :=
  if c = '\\' then ['\\', '\\'] else if c = '"' then ['\\', '"'] else [c]

def quoted (chars : List Char) : List Char :=
  '"' :: chars.flatMap escapeChar ++ ['"']

def flatText : Element → List Char
  | .null => ['N', 'U', 'L', 'L']
  | .text chars => quoted chars
  | .array _ => []

def literal (items : List Element) : List Char :=
  '\x7b' :: [','].intercalate (items.map flatText) ++ ['\x7d']

theorem foldlM_escaped (chars : List Char) :
    ∀ (read : List Char) (items : List Element) (outer : List (List Element)),
      (chars.flatMap escapeChar).foldlM step (.inside items outer (.quoted read)) =
        some (.inside items outer (.quoted (read ++ chars))) := by
  induction chars with
  | nil =>
    intro read items outer
    rw [List.append_nil]
    rfl
  | cons c rest ih =>
    intro read items outer
    have one : (escapeChar c).foldlM step (.inside items outer (.quoted read)) =
        some (.inside items outer (.quoted (read ++ [c]))) := by
      by_cases isSlash : c = '\\'
      · subst isSlash
        rfl
      · by_cases isQuote : c = '"'
        · subst isQuote
          rfl
        · rw [escapeChar, if_neg isSlash, if_neg isQuote, List.foldlM_cons, step,
            if_neg isSlash, if_neg isQuote]
          rfl
    rw [List.flatMap_cons, List.foldlM_append, one]
    change (rest.flatMap escapeChar).foldlM step _ = _
    rw [ih, List.append_assoc, List.singleton_append]

theorem foldlM_quoted (chars : List Char) {mode : Mode} (starts : mode = .first ∨ mode = .next)
    (items : List Element) (outer : List (List Element)) :
    (quoted chars).foldlM step (.inside items outer mode) =
      some (.inside (items ++ [Element.text chars]) outer .after) := by
  have opened : step (.inside items outer mode) '"' = some (.inside items outer (.quoted [])) := by
    rcases starts with rfl | rfl
    · rfl
    · rfl
  rw [quoted, List.cons_append, List.foldlM_cons, opened]
  change ((chars.flatMap escapeChar) ++ ['"']).foldlM step _ = _
  rw [List.foldlM_append, foldlM_escaped]
  rfl

/-- An element and the comma or brace after it. -/
theorem foldlM_element {item : Element} (flat : IsFlat item) {mode : Mode}
    (starts : mode = .first ∨ mode = .next) (items : List Element)
    (outer : List (List Element)) {c : Char} (ends : c = ',' ∨ c = '\x7d') :
    (flatText item ++ [c]).foldlM step (.inside items outer mode) =
      delimit (items ++ [item]) outer c := by
  have notBlank : isBlank c = false := by
    rcases ends with rfl | rfl <;> rfl
  cases item with
  | array _ => exact flat.elim
  | text chars =>
    rw [flatText, List.foldlM_append, foldlM_quoted chars starts]
    change (step (.inside (items ++ [Element.text chars]) outer .after) c >>= pure) = _
    rw [bind_pure, step, notBlank]
    rfl
  | null =>
    have word : (flatText .null).foldlM step (.inside items outer mode) =
        some (.inside items outer (.bare ['N', 'U', 'L', 'L'] [] false)) := by
      rcases starts with rfl | rfl <;> rfl
    rw [List.foldlM_append, word]
    change (step (.inside items outer (.bare ['N', 'U', 'L', 'L'] [] false)) c >>= pure) = _
    rw [bind_pure, step, if_pos ends]
    rfl

theorem foldlM_elements (rest : List Element) :
    ∀ {item : Element} {mode : Mode} (items : List Element),
      (∀ other ∈ item :: rest, IsFlat other) → mode = .first ∨ mode = .next →
        ([','].intercalate ((item :: rest).map flatText) ++ ['\x7d']).foldlM step
          (.inside items [] mode) = some (.closed (items ++ item :: rest)) := by
  induction rest with
  | nil =>
    intro item mode items flat starts
    have read := foldlM_element (flat item List.mem_cons_self) starts items [] (.inr rfl)
    simpa [delimit] using read
  | cons second others ih =>
    intro item mode items flat starts
    have read := foldlM_element (flat item List.mem_cons_self) starts items [] (.inl rfl)
    have tail := @ih second .next (items ++ [item])
      (List.forall_mem_cons.mp flat).2 (.inr rfl)
    rw [List.map_cons, List.map_cons, List.intercalate_cons_cons, ← List.map_cons,
      List.append_assoc, List.foldlM_append, read]
    change ([','].intercalate ((second :: others).map flatText) ++ ['\x7d']).foldlM step
      (.inside (items ++ [item]) [] .next) = _
    rw [tail, List.append_assoc, List.singleton_append]

theorem dimensions_of_flat {item : Element} (flat : IsFlat item) : item.dimensions = some [] := by
  cases item with
  | null => rfl
  | text _ => rfl
  | array _ => exact flat.elim

theorem commonDimensions_of_flat {items : List Element} (flat : ∀ item ∈ items, IsFlat item) :
    commonDimensions items = some [] := by
  induction items with
  | nil => rfl
  | cons item rest ih =>
    have own := dimensions_of_flat (flat item List.mem_cons_self)
    have others := ih (List.forall_mem_cons.mp flat).2
    cases rest with
    | nil => exact own
    | cons second others' =>
      rw [commonDimensions, own, others]
      · rfl
      · exact List.cons_ne_nil _ _

/-- A one-dimensional array is read back from its literal. -/
theorem readArray_literal {items : List Element} (flat : ∀ item ∈ items, IsFlat item) :
    readArray (literal items) = some items := by
  have closed : (literal items).foldlM step .before = some (.closed items) := by
    cases items with
    | nil => rfl
    | cons item rest => exact foldlM_elements rest [] flat (.inl rfl)
  rw [readArray, closed]
  change State.result (.closed items) = _
  rw [State.result, commonDimensions_of_flat flat]
  rfl

end DbBackup.Lib.ArrayLiteral
