import DbBackup.Lib.Delimited
import DbBackup.Engine.Influx.LineProtocol

/-!
Owns the grammar of the line protocol, as a reader, and what becomes of a point that is written to a
dump, forwarded and read.

Contract: `roundTrips_iff_kept`. A point comes back exactly when the measurement, which is written as it
is, has no comma and no space and does not end in a backslash; no tag and no field key has a
backslash, which the grammar does not undo; no string has a space, a comma or an equals sign, which
are escaped where the grammar has no escapes; and the line reaches the server.
-/

set_option linter.all false

namespace DbBackup.Engine.Influx.LineProtocol

open Lib Lib.GoString

/-! ### The grammar -/

inductive Field where
  | text (text : List Char)
  | integer (value : Int)
  /-- By its shortest decimal. -/
  | float (text : List Char)
  | boolean (value : Bool)
deriving DecidableEq

structure PointData where
  measurement : List Char
  tags : List (List Char × List Char)
  fields : List (List Char × Field)
  timestamp : Int
deriving DecidableEq

/-- What stands before the first stop that is not escaped, with the escapes undone. -/
def token (escapes stops : List Char) : List Char → List Char × List Char
  | [] => ([], [])
  | c :: rest =>
    if c ∈ stops then ([], c :: rest)
    else match rest with
      | next :: after =>
        if c = '\\' ∧ next ∈ escapes then
          let read := token escapes stops after
          (next :: read.1, read.2)
        else
          let read := token escapes stops (next :: after)
          (c :: read.1, read.2)
      | [] => ([c], [])

def quoted : List Char → Option (List Char × List Char)
  | [] => none
  | '"' :: rest => some ([], rest)
  | '\\' :: '\\' :: rest => (quoted rest).map fun read => ('\\' :: read.1, read.2)
  | '\\' :: '"' :: rest => (quoted rest).map fun read => ('"' :: read.1, read.2)
  | c :: rest => (quoted rest).map fun read => (c :: read.1, read.2)

def readInt : List Char → Int
  | '-' :: digits => -(Scan.digitsValue digits : Int)
  | digits => (Scan.digitsValue digits : Int)

def readNumber (text : List Char) : Field :=
  if text = boolText true then .boolean true
  else if text = boolText false then .boolean false
  else if text.getLast? = some 'i' then .integer (readInt text.dropLast)
  else .float (if ".0".toList <:+ text then text.dropLast.dropLast else text)

def keyMarks : List Char := [',', '=', ' ']

def valueMarks : List Char := [',', ' ']

def readTags : Nat → List Char → Option (List (List Char × List Char) × List Char)
  | fuel + 1, ',' :: rest =>
    let key := token keyMarks keyMarks rest
    match key.2 with
    | '=' :: after =>
      let value := token keyMarks keyMarks after
      (readTags fuel value.2).map fun read => ((key.1, value.1) :: read.1, read.2)
    | _ => none
  | _ + 1, ' ' :: rest => some ([], rest)
  | _, _ => none

def readValue : List Char → Option (Field × List Char)
  | '"' :: rest => (quoted rest).map fun read => (.text read.1, read.2)
  | text =>
    let read := token [] valueMarks text
    some (readNumber read.1, read.2)

def readFields : Nat → List Char → Option (List (List Char × Field) × List Char)
  | 0, _ => none
  | fuel + 1, text =>
    let key := token keyMarks keyMarks text
    match key.2 with
    | '=' :: after =>
      (readValue after).bind fun value =>
        match value.2 with
        | ',' :: more => (readFields fuel more).map fun read => ((key.1, value.1) :: read.1, read.2)
        | ' ' :: rest => some ([(key.1, value.1)], rest)
        | _ => none
    | _ => none

def readLine (line : List Char) : Option PointData :=
  let name := token valueMarks valueMarks line
  (readTags line.length name.2).bind fun tags =>
    (readFields line.length tags.2).map fun fields =>
      ⟨name.1, tags.1, fields.1, readInt fields.2⟩

/-! ### Points and their rows -/

def intText (n : Int) : List Char :=
  if n < 0 then '-' :: Nat.toDigits 10 n.natAbs else Nat.toDigits 10 n.natAbs

def Field.value : Field → Value
  | .text word => .text word
  | .integer n => .number (intText n)
  | .float decimal => .number decimal
  | .boolean value => .bool value

def Field.type : Field → String
  | .text _ => "string"
  | .integer _ => "integer"
  | .float _ => "float"
  | .boolean _ => "boolean"

def isDecimal (c : Char) : Bool := c.isDigit || c = '-' || c = '.'

/-- The shortest decimal of a number: it has no zero behind the point to drop. -/
structure IsShortest (shortest : List Char → Option (List Char)) (text : List Char) : Prop where
  same : shortest text = some text
  decimal : text.all isDecimal = true
  noZero : ¬ ".0".toList <:+ text

/-- A point of the server: its fields have names of their own, and `time` is none of its keys. -/
structure Point (shortest : List Char → Option (List Char)) extends PointData where
  someField : fields ≠ []
  distinct : (fields.map Prod.fst).Nodup
  noTime : (tags.map Prod.fst ++ fields.map Prod.fst).all (fun key => key ≠ timeColumn) = true
  floats : ∀ field ∈ fields, ∀ text, field.2 = .float text → IsShortest shortest text

variable {shortest : List Char → Option (List Char)}

namespace Point

variable (p : Point shortest)

def isTagKey (key : List Char) : Bool := (p.tags.map Prod.fst).contains key

def fieldType (key : List Char) : Option String :=
  (p.fields.find? fun field => field.1 = key).map fun field => field.2.type

def cells : List Cell :=
  (timeColumn, .number (intText p.timestamp)) ::
    (p.tags.map (fun tag => (tag.1, Value.text tag.2)) ++
      p.fields.map fun field => (field.1, field.2.value))

def line : Option (List Char) :=
  buildLineProtocolInto shortest p.isTagKey p.fieldType p.measurement p.cells

/-- The line of the point, forwarded and read, is the point. -/
def RoundTrips : Prop :=
  ∃ line lines, p.line = some line ∧ forwarded (String.ofList (line ++ ['\n'])) = some lines ∧
    lines.map (fun line => readLine line.toList) = [some p.toPointData]

end Point

/-! ### Tokens -/

theorem token_stop {escapes stops : List Char} {c : Char} (stop : c ∈ stops) (rest : List Char) :
    token escapes stops (c :: rest) = ([], c :: rest) := by
  unfold token
  rw [if_pos stop]

theorem token_plain {escapes stops : List Char} {c next : Char} (noStop : c ∉ stops)
    (noEscape : ¬ (c = '\\' ∧ next ∈ escapes)) (rest : List Char) :
    token escapes stops (c :: next :: rest) =
      (c :: (token escapes stops (next :: rest)).1, (token escapes stops (next :: rest)).2) := by
  rw [token, if_neg noStop, if_neg noEscape]

theorem token_escape {escapes stops : List Char} {next : Char} (noStop : '\\' ∉ stops)
    (escape : next ∈ escapes) (rest : List Char) :
    token escapes stops ('\\' :: next :: rest) =
      (next :: (token escapes stops rest).1, (token escapes stops rest).2) := by
  rw [token, if_neg noStop, if_pos ⟨rfl, escape⟩]

theorem token_cons {escapes stops : List Char} {c : Char} (noStop : c ∉ stops) (noSlash : c ≠ '\\')
    (rest : List Char) : token escapes stops (c :: rest) =
      (c :: (token escapes stops rest).1, (token escapes stops rest).2) := by
  cases rest with
  | nil => simp [token, noStop]
  | cons next rest => exact token_plain noStop (fun both => noSlash both.1) rest

/-- A text without stops and backslashes is read as it is. -/
theorem token_of_plain {escapes stops text : List Char}
    (plain : ∀ c ∈ text, c ∉ stops ∧ c ≠ '\\') {stop : Char} (isStop : stop ∈ stops)
    (rest : List Char) : token escapes stops (text ++ stop :: rest) = (text, stop :: rest) := by
  induction text with
  | nil => exact token_stop isStop rest
  | cons c text ih =>
    obtain ⟨noStop, noSlash⟩ := plain c List.mem_cons_self
    rw [List.cons_append, token_cons noStop noSlash,
      ih (List.forall_mem_cons.mp plain).2]

/-- The measurement is written as it is. -/
theorem token_measurement {text : List Char} {stop : Char} (isStop : stop ∈ valueMarks)
    (rest : List Char) :
    (token valueMarks valueMarks (text ++ stop :: rest)).1 = text ↔
      (∀ c ∈ text, c ∉ valueMarks) ∧ text.getLast? ≠ some '\\' := by
  induction text with
  | nil => simp [token_stop isStop]
  | cons c text ih =>
    by_cases noStop : c ∈ valueMarks
    · rw [List.cons_append, token_stop noStop]
      simp [noStop]
    cases text with
    | nil =>
      rw [List.nil_append] at ih
      by_cases isSlash : c = '\\'
      · rw [List.singleton_append, isSlash, token_escape (by decide) isStop]
        have differs : stop ≠ '\\' := fun same => by
          rw [same] at isStop
          exact absurd isStop (by decide)
        simp [differs]
      · rw [List.singleton_append, token_plain noStop fun both => isSlash both.1,
          token_stop isStop]
        simp [noStop, isSlash]
    | cons next text =>
      rw [List.cons_append] at ih
      rw [List.cons_append, List.cons_append]
      by_cases escape : c = '\\' ∧ next ∈ valueMarks
      · have differs : next ≠ c := by
          rintro rfl
          exact noStop escape.2
        rw [escape.1, token_escape (by decide) escape.2, ← escape.1]
        simp [differs, escape.2]
      · rw [token_plain noStop escape]
        simp only [List.cons.injEq, true_and]
        rw [ih, List.getLast?_cons_cons]
        simp [noStop]

theorem token_of_measurement {text : List Char} {stop : Char} (isStop : stop ∈ valueMarks)
    (noMarks : ∀ c ∈ text, c ∉ valueMarks) (noSlash : text.getLast? ≠ some '\\')
    (rest : List Char) :
    token valueMarks valueMarks (text ++ stop :: rest) = (text, stop :: rest) := by
  induction text with
  | nil => exact token_stop isStop rest
  | cons c text ih =>
    obtain ⟨here, later⟩ := List.forall_mem_cons.mp noMarks
    cases text with
    | nil =>
      have plain : c ≠ '\\' := fun same => noSlash (by rw [same]; rfl)
      rw [List.singleton_append, token_cons here plain, token_stop isStop]
    | cons next text =>
      rw [List.getLast?_cons_cons] at noSlash
      have rest := ih later noSlash
      rw [List.cons_append] at rest
      rw [List.cons_append, List.cons_append,
        token_plain here fun both => later next List.mem_cons_self both.2, rest]

theorem slashed_cons (marks : List Char) (c : Char) (text : List Char) :
    slashed marks (c :: text) = (if c ∈ marks then ['\\', c] else [c]) ++ slashed marks text := rfl

theorem mem_tagMarks_iff {c : Char} (noSlash : c ≠ '\\') :
    c ∈ ['\\', ' ', ',', '='] ↔ c ∈ keyMarks := by
  simp [keyMarks, noSlash]
  tauto

/-- A backslash of a tag is written twice and read twice, or it hides what stands behind. -/
theorem length_token_tag {stop : Char} (isStop : stop ∈ keyMarks) (text rest : List Char) :
    text.length + text.count '\\' ≤
      (token keyMarks keyMarks (lpTagEscaper text ++ stop :: rest)).1.length := by
  induction text with
  | nil => exact Nat.zero_le _
  | cons c text ih =>
    unfold lpTagEscaper at ih ⊢
    rw [slashed_cons]
    by_cases isSlash : c = '\\'
    · subst isSlash
      rw [if_pos (by decide), List.count_cons_self, List.append_assoc, List.cons_append,
        List.singleton_append, token_plain (by decide) (by decide)]
      cases text with
      | nil =>
        change _ ≤ ('\\' :: (token keyMarks keyMarks ('\\' :: stop :: rest)).1).length
        rw [token_escape (by decide) isStop]
        simp
      | cons next text =>
        -- What is written for the next character does not start with a mark.
        obtain ⟨first, more, shape, noMark⟩ : ∃ first more,
            slashed ['\\', ' ', ',', '='] (next :: text) ++ stop :: rest = first :: more ∧
              first ∉ keyMarks := by
          rw [slashed_cons]
          by_cases marked : next ∈ ['\\', ' ', ',', '=']
          · exact ⟨_, _, by rw [if_pos marked]; rfl, by decide⟩
          · refine ⟨_, _, by rw [if_neg marked]; rfl, ?_⟩
            have noSlash : next ≠ '\\' := fun same => marked (by rw [same]; decide)
            exact fun mark => marked ((mem_tagMarks_iff noSlash).mpr mark)
        rw [shape] at ih ⊢
        rw [token_plain (by decide) fun both => noMark both.2]
        simp only [List.length_cons] at ih ⊢
        omega
    · rw [List.count_cons_of_ne isSlash, List.append_assoc]
      have one : (token keyMarks keyMarks ((if c ∈ ['\\', ' ', ',', '='] then ['\\', c] else [c]) ++
          (slashed ['\\', ' ', ',', '='] text ++ stop :: rest))).1.length =
          (token keyMarks keyMarks (slashed ['\\', ' ', ',', '='] text ++ stop :: rest)).1.length + 1
          := by
        by_cases marked : c ∈ ['\\', ' ', ',', '=']
        · rw [if_pos marked, List.cons_append, List.singleton_append,
            token_escape (by decide) ((mem_tagMarks_iff isSlash).mp marked), List.length_cons]
        · rw [if_neg marked, List.singleton_append,
            token_cons (fun mark => marked ((mem_tagMarks_iff isSlash).mpr mark)) isSlash,
            List.length_cons]
      rw [one, List.length_cons]
      omega

theorem token_tag {stop : Char} (isStop : stop ∈ keyMarks) {text : List Char}
    (noSlash : '\\' ∉ text) (rest : List Char) :
    token keyMarks keyMarks (lpTagEscaper text ++ stop :: rest) = (text, stop :: rest) := by
  induction text with
  | nil => exact token_stop isStop rest
  | cons c text ih =>
    rw [List.mem_cons, not_or] at noSlash
    have plain := Ne.symm noSlash.1
    unfold lpTagEscaper at ih ⊢
    rw [slashed_cons, List.append_assoc]
    by_cases marked : c ∈ ['\\', ' ', ',', '=']
    · rw [if_pos marked, List.cons_append, List.singleton_append,
        token_escape (by decide) ((mem_tagMarks_iff plain).mp marked), ih noSlash.2]
    · rw [if_neg marked, List.singleton_append,
        token_cons (fun mark => marked ((mem_tagMarks_iff plain).mpr mark)) plain, ih noSlash.2]

theorem noSlash_of_token {stop : Char} (isStop : stop ∈ keyMarks) {text rest : List Char}
    (same : (token keyMarks keyMarks (lpTagEscaper text ++ stop :: rest)).1 = text) :
    '\\' ∉ text := by
  have longer := length_token_tag isStop text rest
  rw [same] at longer
  exact List.count_eq_zero.mp (by omega)

/-! ### Values -/

def strMarks : List Char := [' ', ',', '=']

theorem quoted_cons {c : Char} (noQuote : c ≠ '"') (noSlash : c ≠ '\\') (rest : List Char) :
    quoted (c :: rest) = (quoted rest).map fun read => (c :: read.1, read.2) := by
  rw [quoted]
  · exact noQuote
  · exact fun _ same _ => noSlash same
  · exact fun _ same _ => noSlash same

theorem quoted_slash {c : Char} (noQuote : c ≠ '"') (noSlash : c ≠ '\\') (rest : List Char) :
    quoted ('\\' :: c :: rest) =
      (quoted (c :: rest)).map fun read => ('\\' :: read.1, read.2) := by
  rw [quoted]
  · decide
  · rintro _ _ ⟨⟩
    exact noSlash rfl
  · rintro _ _ ⟨⟩
    exact noQuote rfl

/-- In a string the grammar undoes two of the five escapes. -/
theorem quoted_string (text rest : List Char) :
    quoted (lpStrEscaper text ++ '"' :: rest) = some (slashed strMarks text, rest) := by
  induction text with
  | nil => rfl
  | cons c text ih =>
    unfold lpStrEscaper at ih ⊢
    rw [slashed_cons, slashed_cons, List.append_assoc]
    by_cases isSlash : c = '\\'
    · subst isSlash
      rw [if_pos (by decide), if_neg (by decide), List.cons_append, List.singleton_append, quoted,
        ih]
      rfl
    by_cases isQuote : c = '"'
    · subst isQuote
      rw [if_pos (by decide), if_neg (by decide), List.cons_append, List.singleton_append, quoted,
        ih]
      rfl
    have same : c ∈ ['\\', '"', ' ', ',', '='] ↔ c ∈ strMarks := by
      simp [strMarks, isSlash, isQuote]
    by_cases marked : c ∈ strMarks
    · rw [if_pos (same.mpr marked), if_pos marked, List.cons_append, List.singleton_append,
        quoted_slash isQuote isSlash, quoted_cons isQuote isSlash, ih]
      rfl
    · rw [if_neg (fun mark => marked (same.mp mark)), if_neg marked, List.singleton_append,
        quoted_cons isQuote isSlash, ih]
      rfl

theorem slashed_eq_iff (marks text : List Char) :
    slashed marks text = text ↔ ∀ c ∈ text, c ∉ marks := by
  have longer : text.length + text.countP (· ∈ marks) = (slashed marks text).length := by
    induction text with
    | nil => rfl
    | cons c text ih =>
      rw [slashed_cons, List.length_append, ← ih]
      by_cases marked : c ∈ marks
      · rw [if_pos marked, List.countP_cons_of_pos (by simpa using marked)]
        simp only [List.length_cons, List.length_nil]
        omega
      · rw [if_neg marked, List.countP_cons_of_neg (by simpa using marked)]
        simp only [List.length_cons, List.length_nil]
        omega
  constructor
  · intro same
    rw [same] at longer
    have none : text.countP (· ∈ marks) = 0 := by omega
    simpa using none
  · intro none
    unfold slashed
    conv_rhs => rw [← List.flatMap_singleton' text]
    apply List.flatMap_congr
    intro c member
    rw [if_neg (none c member)]

def Field.written : Field → List Char
  | .text word => '"' :: (lpStrEscaper word ++ ['"'])
  | .integer n => intText n ++ ['i']
  | .float decimal => formatFloat decimal
  | .boolean value => boolText value

/-- What the grammar reads of a written value. -/
def Field.readBack : Field → Field
  | .text word => .text (slashed strMarks word)
  | field => field

theorem readInt_intText (n : Int) : readInt (intText n) = n := by
  unfold intText
  by_cases negative : n < 0
  · rw [if_pos negative, readInt, Scan.digitsValue_toDigits]
    omega
  · have digits := Scan.digitsValue_toDigits n.natAbs
    have first := Scan.isDigit_toDigits n.natAbs
    rw [if_neg negative]
    unfold readInt
    split
    · rename_i shape
      exact absurd (first '-' (by rw [shape]; exact List.mem_cons_self)) (by decide)
    · rw [digits]
      omega

/-- The letters of numbers and booleans. -/
def isWord (c : Char) : Bool := c.isAlphanum || c = '-' || c = '.'

theorem intText_word (n : Int) : (intText n).all isWord = true := by
  have digits : (Nat.toDigits 10 n.natAbs).all isWord = true := by
    rw [List.all_eq_true]
    intro c member
    simp [isWord, Char.isAlphanum, Scan.isDigit_toDigits n.natAbs c member]
  unfold intText
  split
  · rw [List.all_cons, digits]
    decide
  · exact digits

theorem isIntLiteral_intText (n : Int) : isIntLiteral (intText n) = true := by
  have digits := Scan.isDigit_toDigits n.natAbs
  unfold intText
  split
  · simpa [isIntLiteral] using digits
  · cases shape : Nat.toDigits 10 n.natAbs with
    | nil => exact absurd shape Nat.toDigits_ne_nil
    | cons first rest =>
      rw [shape] at digits
      simp only [isIntLiteral, Bool.and_eq_true, Bool.or_eq_true, List.all_eq_true]
      exact ⟨.inl (digits first List.mem_cons_self),
        (List.forall_mem_cons.mp digits).2⟩

theorem token_word {word : List Char} (isWords : word.all isWord = true) {stop : Char}
    (isStop : stop ∈ valueMarks) (rest : List Char) :
    token [] valueMarks (word ++ stop :: rest) = (word, stop :: rest) := by
  refine token_of_plain ?_ isStop rest
  intro c member
  have letter := List.all_eq_true.mp isWords c member
  constructor
  · intro mark
    simp only [valueMarks, List.mem_cons, List.not_mem_nil, or_false] at mark
    rcases mark with rfl | rfl <;> exact absurd letter (by decide)
  · rintro rfl
    exact absurd letter (by decide)

theorem readValue_word {word : List Char} (isWords : word.all isWord = true)
    {stop : Char} (isStop : stop ∈ valueMarks) (rest : List Char) :
    readValue (word ++ stop :: rest) = some (readNumber word, stop :: rest) := by
  have noQuote : ∀ more, word ++ stop :: rest ≠ '"' :: more := by
    intro more same
    cases word with
    | nil =>
      rw [List.nil_append, List.cons.injEq] at same
      rw [same.1] at isStop
      exact absurd isStop (by decide)
    | cons first word =>
      rw [List.cons_append, List.cons.injEq] at same
      have letter := List.all_eq_true.mp isWords first List.mem_cons_self
      rw [same.1] at letter
      exact absurd letter (by decide)
  rw [readValue]
  · rw [token_word isWords isStop]
  · exact noQuote

theorem formatFloat_decimal {decimal : List Char} (isShortest : IsShortest shortest decimal) :
    (formatFloat decimal).all isDecimal = true := by
  unfold formatFloat
  split
  · exact isShortest.decimal
  · rw [List.all_append, isShortest.decimal]
    decide

theorem word_of_decimal {text : List Char} (decimal : text.all isDecimal = true) :
    text.all isWord = true := by
  rw [List.all_eq_true] at decimal ⊢
  intro c member
  have letter := decimal c member
  simp only [isDecimal, Bool.or_eq_true] at letter
  simp only [isWord, Char.isAlphanum, Bool.or_eq_true]
  tauto

theorem readNumber_float {decimal : List Char} (isShortest : IsShortest shortest decimal) :
    readNumber (formatFloat decimal) = .float decimal := by
  have letters := List.all_eq_true.mp (formatFloat_decimal isShortest)
  have notBool (value : Bool) : formatFloat decimal ≠ boolText value := by
    intro same
    rw [same] at letters
    cases value
    · exact absurd (letters 'f' (by decide)) (by decide)
    · exact absurd (letters 't' (by decide)) (by decide)
  have notInt : (formatFloat decimal).getLast? ≠ some 'i' := fun last =>
    absurd (letters 'i' (List.mem_of_getLast? last)) (by decide)
  rw [readNumber, if_neg (notBool true), if_neg (notBool false), if_neg notInt]
  unfold formatFloat
  split
  · rw [if_neg isShortest.noZero]
  · have zero : ".0".toList = ['.', '0'] := by decide
    rw [if_pos (List.suffix_append _ _), zero]
    congr 1
    rw [List.dropLast_append_of_ne_nil (by simp), List.dropLast_append_of_ne_nil (by simp)]
    simp

theorem readValue_written {field : Field}
    (floats : ∀ decimal, field = .float decimal → IsShortest shortest decimal) {stop : Char}
    (isStop : stop ∈ valueMarks) (rest : List Char) :
    readValue (field.written ++ stop :: rest) = some (field.readBack, stop :: rest) := by
  cases field with
  | text word =>
    change readValue ('"' :: (lpStrEscaper word ++ ['"'] ++ stop :: rest)) = _
    rw [readValue, List.append_assoc, List.singleton_append, quoted_string]
    rfl
  | integer n =>
    have word : (intText n ++ ['i']).all isWord = true := by
      rw [List.all_append, intText_word]
      decide
    have notBool (value : Bool) : intText n ++ ['i'] ≠ boolText value := by
      intro same
      have last := congrArg List.getLast? same
      rw [List.getLast?_concat] at last
      cases value <;> exact absurd last (by decide)
    refine (readValue_word word isStop rest).trans ?_
    rw [readNumber, if_neg (notBool true), if_neg (notBool false), List.getLast?_concat, if_pos rfl,
      List.dropLast_concat, readInt_intText]
    rfl
  | float decimal =>
    have isShortest := floats decimal rfl
    have word := word_of_decimal (formatFloat_decimal isShortest)
    refine (readValue_word word isStop rest).trans ?_
    rw [readNumber_float isShortest]
    rfl
  | boolean value =>
    cases value <;> exact readValue_word (by decide) isStop rest

/-! ### Tags and fields -/

def tagsText (tags : List (List Char × List Char)) : List Char :=
  tags.flatMap fun tag => ',' :: (lpTagEscaper tag.1 ++ '=' :: lpTagEscaper tag.2)

def fieldsText (fields : List (List Char × Field)) : List Char :=
  [','].intercalate (fields.map fun field => lpTagEscaper field.1 ++ '=' :: field.2.written)

theorem readTags_comma (fuel : Nat) (rest : List Char) {out : List (List Char × List Char)}
    {after : List Char} (read : readTags (fuel + 1) (',' :: rest) = some (out, after)) :
    ∃ value more, out = ((token keyMarks keyMarks rest).1, value) :: more := by
  rw [readTags] at read
  split at read
  · obtain ⟨inner, _, same⟩ := Option.map_eq_some_iff.mp read
    exact ⟨_, _, (congrArg Prod.fst same).symm⟩
  · cases read

/-- Behind the tags stands a comma or a space. -/
theorem tagsText_stop (tags : List (List Char × List Char)) (rest : List Char) :
    ∃ stop more, tagsText tags ++ ' ' :: rest = stop :: more ∧ stop ∈ valueMarks := by
  cases tags with
  | nil => exact ⟨' ', rest, rfl, by decide⟩
  | cons tag tags => exact ⟨',', _, rfl, by decide⟩

theorem readTags_iff {fuel : Nat} (tags extra : List (List Char × List Char))
    (enough : (tags ++ extra).length < fuel) (rest after : List Char) :
    readTags fuel (tagsText (tags ++ extra) ++ ' ' :: rest) = some (tags, after) ↔
      (∀ tag ∈ tags, '\\' ∉ tag.1 ∧ '\\' ∉ tag.2) ∧ extra = [] ∧ after = rest := by
  induction tags generalizing fuel with
  | nil =>
    obtain ⟨fuel, rfl⟩ := Nat.exists_eq_add_one_of_ne_zero (Nat.ne_of_gt (Nat.zero_lt_of_lt enough))
    cases extra with
    | nil =>
      change readTags (fuel + 1) (' ' :: rest) = _ ↔ _
      rw [readTags]
      simp [eq_comm]
    | cons tag extra =>
      refine ⟨fun read => ?_, fun kept => ?_⟩
      · obtain ⟨value, more, same⟩ := readTags_comma fuel _ read
        cases same
      · cases kept.2.1
  | cons tag tags ih =>
    obtain ⟨fuel, rfl⟩ := Nat.exists_eq_add_one_of_ne_zero (Nat.ne_of_gt (Nat.zero_lt_of_lt enough))
    obtain ⟨key, value⟩ := tag
    obtain ⟨stop, more, shape, isStop⟩ := tagsText_stop (tags ++ extra) rest
    have isKeyStop : stop ∈ keyMarks := by
      simp only [valueMarks, List.mem_cons, List.not_mem_nil, or_false] at isStop
      rcases isStop with rfl | rfl <;> decide
    have later := @ih fuel (by simp only [List.cons_append, List.length_cons] at enough; omega)
    have text : tagsText ((key, value) :: tags ++ extra) ++ ' ' :: rest =
        ',' :: (lpTagEscaper key ++ '=' :: (lpTagEscaper value ++ stop :: more)) := by
      rw [← shape]
      simp [tagsText]
    rw [text, List.forall_mem_cons]
    by_cases keySlash : '\\' ∈ key
    · refine ⟨fun read => ?_, fun kept => absurd keySlash kept.1.1.1⟩
      obtain ⟨_, _, same⟩ := readTags_comma fuel _ read
      have isKey := congrArg Prod.fst (List.cons.inj same).1
      exact absurd keySlash (noSlash_of_token (by decide) isKey.symm)
    rw [readTags, token_tag (by decide) keySlash]
    change (readTags fuel (token keyMarks keyMarks (lpTagEscaper value ++ stop :: more)).2).map _ =
      _ ↔ _
    by_cases valueSlash : '\\' ∈ value
    · refine ⟨fun read => ?_, fun kept => absurd valueSlash kept.1.1.2⟩
      obtain ⟨_, _, same⟩ := Option.map_eq_some_iff.mp read
      have isValue := congrArg Prod.snd (List.cons.inj (congrArg Prod.fst same)).1
      exact absurd valueSlash (noSlash_of_token isKeyStop isValue)
    rw [token_tag isKeyStop valueSlash]
    dsimp only
    rw [← shape]
    simp only [keySlash, valueSlash, not_false_eq_true, and_self, true_and]
    rw [← later]
    constructor
    · intro read
      obtain ⟨inner, isInner, same⟩ := Option.map_eq_some_iff.mp read
      rw [isInner]
      simp only [Prod.mk.injEq, List.cons.injEq, true_and] at same
      rw [← same.1, ← same.2]
    · intro read
      rw [read]
      rfl

/-! #### Fields -/

theorem fieldsText_cons (field : List Char × Field) (more : List (List Char × Field))
    (rest : List Char) :
    ∃ stop tail, fieldsText (field :: more) ++ ' ' :: rest =
        lpTagEscaper field.1 ++ '=' :: (field.2.written ++ stop :: tail) ∧ stop ∈ valueMarks ∧
      (more = [] → stop = ' ' ∧ tail = rest) ∧
      (more ≠ [] → stop = ',' ∧ tail = fieldsText more ++ ' ' :: rest) := by
  cases more with
  | nil =>
    refine ⟨' ', rest, ?_, by decide, fun _ => ⟨rfl, rfl⟩, fun some => absurd rfl some⟩
    simp [fieldsText]
  | cons next more =>
    refine ⟨',', _, ?_, by decide, ?_, fun _ => ⟨rfl, rfl⟩⟩
    · simp [fieldsText]
    · intro none
      cases none

theorem readFields_head (fuel : Nat) (text : List Char) {out : List (List Char × Field)}
    {after : List Char} (read : readFields fuel text = some (out, after)) :
    ∃ value more, out = ((token keyMarks keyMarks text).1, value) :: more := by
  cases fuel with
  | zero => cases read
  | succ fuel =>
    rw [readFields] at read
    split at read
    · obtain ⟨value, _, read⟩ := Option.bind_eq_some_iff.mp read
      split at read
      · obtain ⟨inner, _, same⟩ := Option.map_eq_some_iff.mp read
        exact ⟨_, _, (congrArg Prod.fst same).symm⟩
      · cases read
        exact ⟨_, _, rfl⟩
      · cases read
    · cases read

def FieldKept (field : List Char × Field) : Prop :=
  '\\' ∉ field.1 ∧ ∀ word, field.2 = .text word → ∀ c ∈ word, c ∉ strMarks

theorem readBack_eq_iff (value : Field) :
    value.readBack = value ↔ ∀ word, value = .text word → ∀ c ∈ word, c ∉ strMarks := by
  cases value with
  | text word =>
    change Field.text (slashed strMarks word) = .text word ↔ _
    rw [Field.text.injEq, slashed_eq_iff]
    refine ⟨?_, fun plain => plain word rfl⟩
    rintro plain _ ⟨⟩
    exact plain
  | integer n => simp [Field.readBack]
  | float decimal => simp [Field.readBack]
  | boolean value => simp [Field.readBack]

theorem readFields_iff {fuel : Nat} {fields : List (List Char × Field)} (some : fields ≠ [])
    (floats : ∀ field ∈ fields, ∀ decimal, field.2 = .float decimal → IsShortest shortest decimal)
    (enough : fields.length ≤ fuel) (rest after : List Char) :
    readFields fuel (fieldsText fields ++ ' ' :: rest) = Option.some (fields, after) ↔
      (∀ field ∈ fields, FieldKept field) ∧ after = rest := by
  induction fields generalizing fuel with
  | nil => exact absurd rfl some
  | cons field more ih =>
    obtain ⟨key, value⟩ := field
    obtain ⟨fuel, rfl⟩ := Nat.exists_eq_add_one_of_ne_zero (Nat.ne_of_gt (Nat.zero_lt_of_lt enough))
    obtain ⟨stop, tail, text, isStop, last, notLast⟩ := fieldsText_cons (key, value) more rest
    rw [text, List.forall_mem_cons]
    by_cases keySlash : '\\' ∈ key
    · refine ⟨fun read => ?_, fun kept => absurd keySlash kept.1.1.1⟩
      obtain ⟨_, _, same⟩ := readFields_head _ _ read
      have isKey := congrArg Prod.fst (List.cons.inj same).1
      exact absurd keySlash (noSlash_of_token (by decide) isKey.symm)
    rw [readFields, token_tag (by decide) keySlash]
    change (readValue (value.written ++ stop :: tail)).bind _ = _ ↔ _
    rw [readValue_written (floats _ List.mem_cons_self) isStop, Option.bind_some]
    dsimp only
    by_cases none : more = []
    · obtain ⟨rfl, rfl⟩ := last none
      subst none
      change Option.some ([(key, value.readBack)], tail) = _ ↔ _
      simp [FieldKept, keySlash, ← readBack_eq_iff, eq_comm]
    · obtain ⟨rfl, rfl⟩ := notLast none
      have later := @ih fuel none (List.forall_mem_cons.mp floats).2
        (by simp only [List.length_cons] at enough; omega)
      change (readFields fuel (fieldsText more ++ ' ' :: rest)).map _ = _ ↔ _
      constructor
      · intro read
        obtain ⟨inner, isInner, same⟩ := Option.map_eq_some_iff.mp read
        simp only [Prod.mk.injEq, List.cons.injEq] at same
        obtain ⟨⟨⟨_, back⟩, isMore⟩, isAfter⟩ := same
        have isRead : readFields fuel (fieldsText more ++ ' ' :: rest) = Option.some (more, after) := by
          rw [isInner, ← isMore, ← isAfter]
        obtain ⟨kept, atEnd⟩ := later.mp isRead
        exact ⟨⟨⟨keySlash, (readBack_eq_iff value).mp back⟩, kept⟩, atEnd⟩
      · rintro ⟨⟨⟨_, plain⟩, kept⟩, atEnd⟩
        rw [later.mpr ⟨kept, atEnd⟩, Option.map_some, (readBack_eq_iff value).mpr plain]

/-! ### A reader adds no character -/

section

variable {mark : Char}

theorem not_mem_token {escapes stops text : List Char} (absent : mark ∉ text) :
    mark ∉ (token escapes stops text).1 ∧ mark ∉ (token escapes stops text).2 := by
  induction text using token.induct escapes stops with
  | case1 => simp [token]
  | case2 c rest stop =>
    rw [token_stop stop]
    exact ⟨List.not_mem_nil, absent⟩
  | case3 c noStop next after escape ih =>
    rw [token, if_neg noStop, if_pos escape]
    simp only [List.mem_cons, not_or] at absent ⊢
    have later := ih absent.2.2
    exact ⟨⟨absent.2.1, later.1⟩, later.2⟩
  | case4 c noStop next after noEscape ih =>
    rw [token, if_neg noStop, if_neg noEscape]
    rw [List.mem_cons, not_or] at absent
    have later := ih absent.2
    exact ⟨by rw [List.mem_cons, not_or]; exact ⟨absent.1, later.1⟩, later.2⟩
  | case5 c noStop =>
    rw [token, if_neg noStop]
    exact ⟨absent, List.not_mem_nil⟩

theorem not_mem_quoted {text : List Char} {read : List Char × List Char}
    (reads : quoted text = some read) (absent : mark ∉ text) : mark ∉ read.1 ∧ mark ∉ read.2 := by
  induction text using quoted.induct generalizing read with
  | case1 => cases reads
  | case2 rest =>
    cases reads
    exact ⟨List.not_mem_nil, fun inRest => absent (List.mem_cons_of_mem _ inRest)⟩
  | case3 rest ih =>
    rw [quoted] at reads
    obtain ⟨inner, isInner, rfl⟩ := Option.map_eq_some_iff.mp reads
    simp only [List.mem_cons, not_or] at absent ⊢
    have later := ih isInner absent.2.2
    exact ⟨⟨absent.1, later.1⟩, later.2⟩
  | case4 rest ih =>
    rw [quoted] at reads
    obtain ⟨inner, isInner, rfl⟩ := Option.map_eq_some_iff.mp reads
    simp only [List.mem_cons, not_or] at absent ⊢
    have later := ih isInner absent.2.2
    exact ⟨⟨absent.2.1, later.1⟩, later.2⟩
  | case5 c rest noQuote noSlashes noSlashQuote ih =>
    rw [quoted.eq_5 c rest noQuote noSlashes noSlashQuote] at reads
    obtain ⟨inner, isInner, rfl⟩ := Option.map_eq_some_iff.mp reads
    simp only [List.mem_cons, not_or] at absent ⊢
    have later := ih isInner absent.2
    exact ⟨⟨absent.1, later.1⟩, later.2⟩

theorem not_mem_readValue {text : List Char} {read : Field × List Char}
    (reads : readValue text = some read) (absent : mark ∉ text) :
    (∀ word, read.1 = .text word → mark ∉ word) ∧ mark ∉ read.2 := by
  unfold readValue at reads
  split at reads
  · obtain ⟨inner, isInner, rfl⟩ := Option.map_eq_some_iff.mp reads
    rw [List.mem_cons, not_or] at absent
    have within := not_mem_quoted isInner absent.2
    refine ⟨?_, within.2⟩
    rintro word ⟨⟩
    exact within.1
  · cases reads
    refine ⟨?_, (not_mem_token absent).2⟩
    intro word isText
    unfold readNumber at isText
    split_ifs at isText

/-- No key and no string has the character. -/
def FieldsLack (mark : Char) (fields : List (List Char × Field)) : Prop :=
  ∀ field ∈ fields, mark ∉ field.1 ∧ ∀ word, field.2 = .text word → mark ∉ word

def TagsLack (mark : Char) (tags : List (List Char × List Char)) : Prop :=
  ∀ tag ∈ tags, mark ∉ tag.1 ∧ mark ∉ tag.2

theorem not_mem_readTags {fuel : Nat} {text : List Char}
    {read : List (List Char × List Char) × List Char} (reads : readTags fuel text = some read)
    (absent : mark ∉ text) : TagsLack mark read.1 ∧ mark ∉ read.2 := by
  induction fuel generalizing text read with
  | zero => cases reads
  | succ fuel ih =>
    unfold readTags at reads
    split at reads
    · rename_i less rest same
      cases same
      rw [List.mem_cons, not_or] at absent
      have key := @not_mem_token mark keyMarks keyMarks rest absent.2
      dsimp only at reads
      split at reads
      · rename_i after shape
        rw [shape, List.mem_cons, not_or] at key
        have value := @not_mem_token mark keyMarks keyMarks after key.2.2
        obtain ⟨inner, isInner, rfl⟩ := Option.map_eq_some_iff.mp reads
        have later := ih isInner value.2
        exact ⟨List.forall_mem_cons.mpr ⟨⟨key.1, value.1⟩, later.1⟩, later.2⟩
      · cases reads
    · cases reads
      refine ⟨?_, fun inRest => absent (List.mem_cons_of_mem _ inRest)⟩
      intro tag inNone
      cases inNone
    · cases reads

theorem not_mem_readFields {fuel : Nat} {text : List Char}
    {read : List (List Char × Field) × List Char} (reads : readFields fuel text = some read)
    (absent : mark ∉ text) : FieldsLack mark read.1 := by
  induction fuel generalizing text read with
  | zero => cases reads
  | succ fuel ih =>
    have key := @not_mem_token mark keyMarks keyMarks text absent
    unfold readFields at reads
    dsimp only at reads
    split at reads
    · rename_i after shape
      rw [shape, List.mem_cons, not_or] at key
      obtain ⟨value, isValue, reads⟩ := Option.bind_eq_some_iff.mp reads
      have within := not_mem_readValue isValue key.2.2
      split at reads
      · rename_i more behind
        rw [behind, List.mem_cons, not_or] at within
        obtain ⟨inner, isInner, rfl⟩ := Option.map_eq_some_iff.mp reads
        exact List.forall_mem_cons.mpr ⟨⟨key.1, within.1⟩, ih isInner within.2.2⟩
      · cases reads
        exact List.forall_mem_singleton.mpr ⟨key.1, within.1⟩
      · cases reads
    · cases reads

def PointData.Lacks (mark : Char) (data : PointData) : Prop :=
  mark ∉ data.measurement ∧ TagsLack mark data.tags ∧ FieldsLack mark data.fields

theorem lacks_readLine {line : List Char} {data : PointData} (reads : readLine line = some data)
    (absent : mark ∉ line) : data.Lacks mark := by
  unfold readLine at reads
  have name := @not_mem_token mark valueMarks valueMarks line absent
  obtain ⟨tags, isTags, reads⟩ := Option.bind_eq_some_iff.mp reads
  obtain ⟨fields, isFields, rfl⟩ := Option.map_eq_some_iff.mp reads
  have tagsLack := not_mem_readTags isTags name.2
  exact ⟨name.1, tagsLack.1, not_mem_readFields isFields tagsLack.2⟩

end

/-! ### The line of a point -/

namespace Point

variable (p : Point shortest)

/-- The fields that have the key of a tag, which are written as tags. -/
def clashing : List (List Char × List Char) :=
  (p.fields.filter fun field => p.isTagKey field.1).map fun field =>
    (field.1, stringifyTag field.2.value)

def ownFields : List (List Char × Field) := p.fields.filter fun field => !p.isTagKey field.1

def textOf (tags : List (List Char × List Char)) (fields : List (List Char × Field)) : List Char :=
  p.measurement ++ tagsText tags ++ ' ' :: fieldsText fields ++ ' ' :: intText p.timestamp

theorem fieldType_eq {field : List Char × Field} (member : field ∈ p.fields) :
    p.fieldType field.1 = some field.2.type := by
  have found : p.fields.find? (fun other => other.1 = field.1) = some field := by
    have distinct := p.distinct
    revert member distinct
    induction p.fields with
    | nil => exact fun member => absurd member (List.not_mem_nil)
    | cons first more ih =>
      intro member distinct
      rw [List.map_cons, List.nodup_cons] at distinct
      rcases List.mem_cons.mp member with rfl | later
      · simp
      · have away : first.1 ≠ field.1 := fun same =>
          distinct.1 (same ▸ List.mem_map.mpr ⟨field, later, rfl⟩)
        rw [List.find?_cons_of_neg (by simpa using away)]
        exact ih later distinct.2
  rw [fieldType, found, Option.map_some]

theorem fieldText_eq {field : List Char × Field} (member : field ∈ p.fields) :
    fieldText shortest p.fieldType (field.1, field.2.value) =
      lpTagEscaper field.1 ++ '=' :: field.2.written := by
  have floats := p.floats field member
  obtain ⟨key, value⟩ := field
  have type := p.fieldType_eq member
  dsimp only at type floats ⊢
  unfold fieldText
  rw [type]
  congr 2
  cases value with
  | text word => rfl
  | integer n =>
    have literal : (if some (Field.integer n).type = some "integer" then
        integerLiteral (Field.integer n).value else none) = some (intText n) :=
      if_pos (isIntLiteral_intText n)
    rw [literal]
    rfl
  | float decimal =>
    change (shortest decimal).elim decimal formatFloat = formatFloat decimal
    rw [(floats decimal rfl).same]
    rfl
  | boolean value => rfl

theorem ne_time {key : List Char} (isKey : key ∈ p.tags.map Prod.fst ++ p.fields.map Prod.fst) :
    key ≠ timeColumn := by
  have notTime := List.all_eq_true.mp p.noTime key isKey
  simpa using notTime

theorem value_ne_null (field : Field) : field.value ≠ .null := by cases field <;> simp [Field.value]

theorem tag_ne_time {tag : List Char × List Char} (member : tag ∈ p.tags) : tag.1 ≠ timeColumn :=
  p.ne_time (List.mem_append_left _ (List.mem_map.mpr ⟨tag, member, rfl⟩))

theorem field_ne_time {field : List Char × Field} (member : field ∈ p.fields) :
    field.1 ≠ timeColumn :=
  p.ne_time (List.mem_append_right _ (List.mem_map.mpr ⟨field, member, rfl⟩))

theorem isTagKey_of_mem {tag : List Char × List Char} (member : tag ∈ p.tags) :
    p.isTagKey tag.1 = true :=
  List.contains_iff_mem.mpr (List.mem_map.mpr ⟨tag, member, rfl⟩)

theorem tagCells : p.cells.filter (isTag p.isTagKey) =
    p.tags.map (fun tag => (tag.1, Value.text tag.2)) ++
      (p.fields.filter fun field => p.isTagKey field.1).map fun field =>
        (field.1, field.2.value) := by
  rw [cells, List.filter_cons_of_neg (by simp [isTag]), List.filter_append, List.filter_map,
    List.filter_map]
  congr 2
  · rw [List.filter_eq_self]
    intro tag member
    simp [isTag, p.tag_ne_time member, p.isTagKey_of_mem member]
  · apply List.filter_congr
    intro field member
    simp [isTag, p.field_ne_time member, value_ne_null]

theorem fieldCells : p.cells.filter (isField p.isTagKey) =
    p.ownFields.map fun field => (field.1, field.2.value) := by
  rw [cells, List.filter_cons_of_neg (by simp [isField]), List.filter_append, List.filter_map,
    List.filter_map, ownFields]
  have noTag : p.tags.filter (isField p.isTagKey ∘ fun tag => (tag.1, Value.text tag.2)) = [] := by
    rw [List.filter_eq_nil_iff]
    intro tag member
    simp [isField, p.isTagKey_of_mem member]
  rw [noTag, List.map_nil, List.nil_append]
  congr 1
  apply List.filter_congr
  intro field member
  simp [isField, p.field_ne_time member, value_ne_null]

theorem timestamp_cells : LineProtocol.timestamp p.cells = intText p.timestamp := by
  have others : ∀ (others : List Cell) (ts : List Char),
      (∀ cell ∈ others, cell.1 ≠ timeColumn) → others.foldl (fun ts cell =>
        if cell.1 = timeColumn then formatTimestamp cell.2 else ts) ts = ts := by
    intro others
    induction others with
    | nil => exact fun _ _ => rfl
    | cons cell more ih =>
      intro ts noTime
      rw [List.foldl_cons, if_neg (noTime cell List.mem_cons_self)]
      exact ih ts (List.forall_mem_cons.mp noTime).2
  rw [LineProtocol.timestamp, cells, List.foldl_cons, if_pos rfl]
  refine others _ _ ?_
  intro cell member
  rcases List.mem_append.mp member with isTag | isField
  · obtain ⟨tag, inTags, rfl⟩ := List.mem_map.mp isTag
    exact p.tag_ne_time inTags
  · obtain ⟨field, inFields, rfl⟩ := List.mem_map.mp isField
    exact p.field_ne_time inFields

theorem line_eq :
    p.line = if p.ownFields = [] then none
      else some (p.textOf (p.tags ++ p.clashing) p.ownFields) := by
  have tagsSame : (p.cells.filter (isTag p.isTagKey)).flatMap tagText =
      tagsText (p.tags ++ p.clashing) := by
    rw [tagCells, tagsText, clashing, List.flatMap_append, List.flatMap_append, List.flatMap_map,
      List.flatMap_map, List.flatMap_map]
    rfl
  have fieldsSame : (p.ownFields.map fun field => (field.1, field.2.value)).map
      (fieldText shortest p.fieldType) =
      p.ownFields.map fun field => lpTagEscaper field.1 ++ '=' :: field.2.written := by
    rw [List.map_map]
    apply List.map_congr_left
    intro field member
    exact p.fieldText_eq (List.mem_of_mem_filter member)
  have someTime : intText p.timestamp ≠ [] := by
    unfold intText
    split
    · exact List.cons_ne_nil _ _
    · exact Nat.toDigits_ne_nil
  rw [line, buildLineProtocolInto, fieldCells, tagsSame, timestamp_cells, fieldsSame,
    if_neg someTime]
  by_cases none : p.ownFields = []
  · rw [if_pos none, none, List.map_nil, if_pos rfl]
  · rw [if_neg none, if_neg (by simpa using none)]
    rfl

theorem length_tagsText (tags : List (List Char × List Char)) :
    tags.length ≤ (tagsText tags).length := by
  induction tags with
  | nil => exact Nat.le_refl 0
  | cons tag tags ih =>
    have step : tagsText (tag :: tags) =
        ',' :: (lpTagEscaper tag.1 ++ '=' :: lpTagEscaper tag.2) ++ tagsText tags := rfl
    rw [step, List.length_append, List.length_cons, List.length_cons]
    omega

theorem length_fieldsText (fields : List (List Char × Field)) :
    fields.length ≤ (fieldsText fields).length := by
  induction fields with
  | nil => exact Nat.le_refl 0
  | cons field more ih =>
    unfold fieldsText at ih ⊢
    cases more with
    | nil =>
      simp
      omega
    | cons next more =>
      simp only [List.map_cons, List.intercalate_cons_cons, List.length_append, List.length_cons]
        at ih ⊢
      omega

/-- Nothing of the point is lost between the line and the reader. -/
structure Legible : Prop where
  measurement : (∀ c ∈ p.measurement, c ∉ valueMarks) ∧ p.measurement.getLast? ≠ some '\\'
  tags : ∀ tag ∈ p.tags, '\\' ∉ tag.1 ∧ '\\' ∉ tag.2
  fields : ∀ field ∈ p.fields, FieldKept field
  apart : ∀ field ∈ p.fields, p.isTagKey field.1 = false

theorem clashing_eq_nil_iff :
    p.clashing = [] ↔ ∀ field ∈ p.fields, p.isTagKey field.1 = false := by
  simp [clashing]

theorem ownFields_of_apart (apart : ∀ field ∈ p.fields, p.isTagKey field.1 = false) :
    p.ownFields = p.fields := by
  rw [ownFields, List.filter_eq_self]
  intro field member
  rw [apart field member]
  rfl

theorem readLine_iff :
    readLine (p.textOf (p.tags ++ p.clashing) p.ownFields) = some p.toPointData ↔ p.Legible := by
  obtain ⟨stop, more, shape, isStop⟩ := tagsText_stop (p.tags ++ p.clashing)
    (fieldsText p.ownFields ++ ' ' :: intText p.timestamp)
  have text : p.textOf (p.tags ++ p.clashing) p.ownFields = p.measurement ++ stop :: more := by
    rw [← shape, textOf]
    simp only [List.append_assoc, List.cons_append]
  have enoughTags : (p.tags ++ p.clashing).length <
      (p.textOf (p.tags ++ p.clashing) p.ownFields).length := by
    have least := length_tagsText (p.tags ++ p.clashing)
    rw [textOf]
    simp only [List.length_append, List.length_cons]
    simp only [List.length_append] at least
    omega
  have enoughFields (apart : p.ownFields = p.fields) : p.fields.length ≤
      (p.textOf (p.tags ++ p.clashing) p.ownFields).length := by
    have least := length_fieldsText p.fields
    rw [textOf, apart]
    simp only [List.length_append, List.length_cons]
    omega
  have tagsIff := fun after => readTags_iff p.tags p.clashing enoughTags
    (fieldsText p.ownFields ++ ' ' :: intText p.timestamp) after
  rw [shape] at tagsIff
  unfold readLine
  constructor
  · intro read
    obtain ⟨tags, readsTags, read⟩ := Option.bind_eq_some_iff.mp read
    obtain ⟨fields, readsFields, same⟩ := Option.map_eq_some_iff.mp read
    have isName := congrArg PointData.measurement same
    have isTags := congrArg PointData.tags same
    have isFields := congrArg PointData.fields same
    dsimp only at isName isTags isFields
    rw [text] at isName
    have name := (token_measurement isStop more).mp isName
    obtain ⟨tagList, after⟩ := tags
    rw [text, token_of_measurement isStop name.1 name.2, ← text] at readsTags
    dsimp only at isTags readsTags readsFields
    rw [isTags] at readsTags
    obtain ⟨tagsKept, noClash, rfl⟩ := (tagsIff after).mp readsTags
    have apart := p.clashing_eq_nil_iff.mp noClash
    have own := p.ownFields_of_apart apart
    obtain ⟨fieldList, rest⟩ := fields
    dsimp only at isFields
    rw [isFields, own] at readsFields
    rw [own] at enoughFields
    have kept := ((readFields_iff p.someField p.floats (enoughFields rfl) _ rest).mp readsFields).1
    exact ⟨name, tagsKept, kept, apart⟩
  · intro legible
    have own := p.ownFields_of_apart legible.apart
    have readsTags := (tagsIff _).mpr ⟨legible.tags, p.clashing_eq_nil_iff.mpr legible.apart, rfl⟩
    have readsFields := (readFields_iff p.someField p.floats (enoughFields own)
      (intText p.timestamp) _).mpr ⟨legible.fields, rfl⟩
    have name := token_of_measurement isStop legible.measurement.1 legible.measurement.2 more
    rw [← text] at name
    rw [name]
    dsimp only
    rw [readsTags, Option.bind_some]
    dsimp only
    rw [own] at readsFields ⊢
    rw [readsFields, Option.map_some, readInt_intText]

end Point

/-! ### The line on its way -/

section

variable {mark : Char}

theorem not_mem_slashed (notSlash : mark ≠ '\\') {text : List Char} (absent : mark ∉ text)
    (marks : List Char) : mark ∉ slashed marks text := by
  unfold slashed
  rw [List.mem_flatMap]
  rintro ⟨c, member, inPart⟩
  have differs : mark ≠ c := fun same => absent (same ▸ member)
  split at inPart <;> simp_all

theorem not_mem_word (notWord : isWord mark = false) {word : List Char}
    (isWords : word.all isWord = true) : mark ∉ word := by
  intro member
  have letter := List.all_eq_true.mp isWords mark member
  rw [notWord] at letter
  cases letter

theorem not_mem_written {field : Field}
    (floats : ∀ decimal, field = .float decimal → IsShortest shortest decimal)
    (absent : ∀ word, field = .text word → '\n' ∉ word) : '\n' ∉ field.written := by
  cases field with
  | text word =>
    have inner := not_mem_slashed (by decide) (absent word rfl) ['\\', '"', ' ', ',', '=']
    simp [Field.written, lpStrEscaper, inner]
  | integer n =>
    have digits := @not_mem_word '\n' (by decide) _ (intText_word n)
    simp [Field.written, digits]
  | float decimal =>
    exact not_mem_word (by decide) (word_of_decimal (formatFloat_decimal (floats decimal rfl)))
  | boolean value => cases value <;> decide

theorem not_mem_tagsText {tags : List (List Char × List Char)} (lack : TagsLack '\n' tags) :
    '\n' ∉ tagsText tags := by
  unfold tagsText
  rw [List.mem_flatMap]
  rintro ⟨tag, member, inTag⟩
  have key := not_mem_slashed (by decide) (lack tag member).1 ['\\', ' ', ',', '=']
  have value := not_mem_slashed (by decide) (lack tag member).2 ['\\', ' ', ',', '=']
  simp [lpTagEscaper, key, value] at inTag

theorem not_mem_fieldsText {fields : List (List Char × Field)} (lack : FieldsLack '\n' fields)
    (floats : ∀ field ∈ fields, ∀ decimal, field.2 = .float decimal → IsShortest shortest decimal) :
    '\n' ∉ fieldsText fields := by
  intro member
  rcases Delimited.mem_intercalate member with isComma | ⟨part, isPart, inPart⟩
  · cases isComma
  obtain ⟨field, isField, rfl⟩ := List.mem_map.mp isPart
  have key := not_mem_slashed (by decide) (lack field isField).1 ['\\', ' ', ',', '=']
  have value := not_mem_written (floats field isField) (lack field isField).2
  simp [lpTagEscaper, key, value] at inPart

end

namespace Point

variable (p : Point shortest)

theorem lacks_clashing (lack : p.Lacks '\n') : TagsLack '\n' p.clashing := by
  intro tag member
  obtain ⟨field, isField, rfl⟩ := List.mem_map.mp member
  have inFields := List.mem_of_mem_filter isField
  have within := lack.2.2 field inFields
  have floats := p.floats field inFields
  refine ⟨within.1, ?_⟩
  obtain ⟨key, value⟩ := field
  cases value with
  | text word => exact within.2 word rfl
  | integer n => exact not_mem_word (by decide) (intText_word n)
  | float decimal => exact not_mem_word (by decide) (word_of_decimal (floats decimal rfl).decimal)
  | boolean value =>
    change '\n' ∉ boolText value
    cases value <;> decide

/-- The line of a point without line breaks is one line. -/
theorem oneLine_textOf (lack : p.Lacks '\n') :
    '\n' ∉ p.textOf (p.tags ++ p.clashing) p.ownFields := by
  have tags := @not_mem_tagsText (p.tags ++ p.clashing) fun tag member =>
    (List.mem_append.mp member).elim (lack.2.1 tag) (p.lacks_clashing lack tag)
  have fields : '\n' ∉ fieldsText p.ownFields := not_mem_fieldsText
    (fun field member => lack.2.2 field (List.mem_of_mem_filter member))
    (fun field member => p.floats field (List.mem_of_mem_filter member))
  have time := @not_mem_word '\n' (by decide) _ (intText_word p.timestamp)
  have name := lack.1
  rw [textOf]
  simp [tags, fields, time, name]

theorem trimReturns_textOf (tags : List (List Char × List Char))
    (fields : List (List Char × Field)) :
    trimReturns (String.ofList (p.textOf tags fields)) = String.ofList (p.textOf tags fields) := by
  have someDigit : intText p.timestamp ≠ [] := by
    unfold intText
    split
    · exact List.cons_ne_nil _ _
    · exact Nat.toDigits_ne_nil
  obtain ⟨before, last, shape⟩ := List.eq_nil_or_concat (intText p.timestamp) |>.resolve_left someDigit
  have noReturn : last ≠ '\r' := by
    rintro rfl
    refine @not_mem_word '\r' (by decide) _ (intText_word p.timestamp) ?_
    rw [shape, List.concat_eq_append]
    exact List.mem_append_right _ (List.mem_singleton.mpr rfl)
  unfold trimReturns
  refine congrArg String.ofList ?_
  rw [String.toList_ofList, textOf, shape]
  simp [noReturn]

/-- A dump of one line is that line. -/
theorem forwarded_oneLine {line : List Char} (oneLine : '\n' ∉ line)
    (kept : trimReturns (String.ofList line) = String.ofList line) :
    forwarded (String.ofList (line ++ ['\n'])) =
      if (String.ofList line).utf8ByteSize < maxLineBytes then
        some (if passedBy (String.ofList line) then [] else [String.ofList line])
      else none := by
  have lines : LineScan.textLines (String.ofList (line ++ ['\n'])) = [String.ofList line] := by
    unfold LineScan.textLines
    rw [String.toList_ofList, LineScan.splitLines_append [] line [] oneLine]
    rfl
  rw [forwarded, lines]
  simp only [List.all_cons, List.all_nil, Bool.and_true, decide_eq_true_eq, List.map_cons,
    List.map_nil, kept]
  split
  · cases passes : passedBy (String.ofList line) <;> simp [passes]
  · rfl

end Point

/-! ### The lines passed by -/

theorem hasPrefix_append_cons {start : String} {mark : Char} (absent : mark ∉ start.toList)
    (first second other : List Char) :
    hasPrefix (String.ofList (first ++ mark :: second)) start =
      hasPrefix (String.ofList (first ++ mark :: other)) start := by
  unfold hasPrefix
  rw [Bool.eq_iff_iff, List.isPrefixOf_iff_prefix, List.isPrefixOf_iff_prefix, String.toList_ofList,
    String.toList_ofList, LineScan.prefix_append_cons_iff absent,
    LineScan.prefix_append_cons_iff absent]

/-- Whether a line is passed by is seen up to its first comma or equals sign. -/
theorem passedBy_append {mark : Char} (isMark : mark = ',' ∨ mark = '=') (before rest : List Char) :
    passedBy (String.ofList (before ++ mark :: rest)) =
      passedBy (String.ofList (before ++ [mark])) := by
  have noSpace : isSpace mark = false := by rcases isMark with rfl | rfl <;> decide
  have upper : upperChar mark = mark := by rcases isMark with rfl | rfl <;> decide
  -- Behind the blanks in front both lines go on with the same text up to the mark.
  have trimmed (more : List Char) : ∃ kept, trimSpace (String.ofList (before ++ mark :: more)) =
      String.ofList (before.dropWhile isSpace ++ mark :: kept) := by
    refine ⟨(more.reverse.dropWhile isSpace).reverse, ?_⟩
    unfold trimSpace
    refine congrArg String.ofList ?_
    have front : (before ++ mark :: more).dropWhile isSpace =
        before.dropWhile isSpace ++ mark :: more := by
      rw [List.dropWhile_append]
      split
      · rename_i blank
        rw [List.isEmpty_iff.mp blank, List.dropWhile_cons_of_neg (by simp [noSpace])]
        rfl
      · rfl
    rw [String.toList_ofList, front, List.reverse_append, List.reverse_cons, List.append_assoc,
      List.dropWhile_append]
    split
    · rename_i blank
      rw [List.isEmpty_iff.mp blank, List.singleton_append,
        List.dropWhile_cons_of_neg (by simp [noSpace])]
      simp
    · simp
  obtain ⟨kept, isKept⟩ := trimmed rest
  obtain ⟨other, isOther⟩ := trimmed []
  have inUpper (more : List Char) :
      toUpper (String.ofList (before.dropWhile isSpace ++ mark :: more)) =
        String.ofList ((before.dropWhile isSpace).map upperChar ++ mark :: more.map upperChar) := by
    unfold toUpper
    rw [String.toList_ofList, List.map_append, List.map_cons, upper]
  have absent (start : String) (lacks : ',' ∉ start.toList ∧ '=' ∉ start.toList) :
      mark ∉ start.toList := by
    rcases isMark with rfl | rfl
    · exact lacks.1
    · exact lacks.2
  have notEmpty (more : List Char) :
      String.ofList (before.dropWhile isSpace ++ mark :: more) ≠ "" := by
    intro empty
    have chars := congrArg String.toList empty
    simp at chars
  unfold passedBy
  dsimp only
  rw [isKept, isOther, inUpper, inUpper,
    hasPrefix_append_cons (absent "#" (by decide)) _ kept other,
    hasPrefix_append_cons (absent "//" (by decide)) _ kept other,
    hasPrefix_append_cons (absent "CREATE DATABASE" (by decide)) _ _ (other.map upperChar),
    decide_eq_false (notEmpty kept), decide_eq_false (notEmpty other)]

/-! ### The points that come back -/

def textSize (text : List Char) : Nat := (String.ofList text).utf8ByteSize

theorem textSize_append (first second : List Char) :
    textSize (first ++ second) = textSize first + textSize second := by
  rw [textSize, String.ofList_append, String.utf8ByteSize_append, textSize, textSize]

theorem textSize_cons (c : Char) (text : List Char) :
    textSize (c :: text) = textSize [c] + textSize text := textSize_append [c] text

namespace Point

variable (p : Point shortest)

def tagSize (tag : List Char × List Char) : Nat :=
  textSize (lpTagEscaper tag.1) + textSize (lpTagEscaper tag.2) + 2

def fieldSize (field : List Char × Field) : Nat :=
  textSize (lpTagEscaper field.1) + textSize field.2.written + 2

/-- The bytes of the point, with a mark before each part. -/
def size : Nat :=
  textSize p.measurement + (p.tags.map tagSize).sum + (p.fields.map fieldSize).sum + 1 +
    textSize (intText p.timestamp)

/-- The measurement and, in a point without tags, the key of the first field. -/
def opening : List Char :=
  if p.tags = [] then p.measurement ++ ' ' :: lpTagEscaper (p.fields.head p.someField).1 ++ ['=']
  else p.measurement ++ [',']

theorem textSize_tagsText (tags : List (List Char × List Char)) :
    textSize (tagsText tags) = (tags.map tagSize).sum := by
  induction tags with
  | nil => rfl
  | cons tag tags ih =>
    have step : tagsText (tag :: tags) =
        ',' :: (lpTagEscaper tag.1 ++ '=' :: lpTagEscaper tag.2) ++ tagsText tags := rfl
    have comma : textSize [','] = 1 := by decide
    have equals : textSize ['='] = 1 := by decide
    rw [step, textSize_append, textSize_cons, textSize_append, textSize_cons '=', ih, comma, equals,
      List.map_cons, List.sum_cons, tagSize]
    omega

theorem textSize_fieldsText {fields : List (List Char × Field)} (some : fields ≠ []) :
    textSize (fieldsText fields) + 1 = (fields.map fieldSize).sum := by
  have comma : textSize [','] = 1 := by decide
  have equals : textSize ['='] = 1 := by decide
  induction fields with
  | nil => exact absurd rfl some
  | cons field more ih =>
    cases more with
    | nil =>
      have only : fieldsText [field] = lpTagEscaper field.1 ++ '=' :: field.2.written := by
        simp [fieldsText]
      rw [only, textSize_append, textSize_cons, equals, List.map_singleton, List.sum_singleton,
        fieldSize]
      omega
    | cons next more =>
      have step : fieldsText (field :: next :: more) =
          lpTagEscaper field.1 ++ '=' :: field.2.written ++ ',' :: fieldsText (next :: more) := by
        simp [fieldsText]
      rw [step, textSize_append, textSize_append, textSize_cons, textSize_cons ',', equals, comma,
        List.map_cons, List.sum_cons, ← ih (List.cons_ne_nil _ _), fieldSize]
      omega

theorem textSize_textOf : textSize (p.textOf p.tags p.fields) = p.size := by
  have space : textSize [' '] = 1 := by decide
  have fields := textSize_fieldsText p.someField
  rw [textOf, textSize_append, textSize_append, textSize_append,
    textSize_cons ' ' (fieldsText p.fields), textSize_cons ' ' (intText p.timestamp), space,
    textSize_tagsText, size]
  omega

theorem passedBy_textOf : passedBy (String.ofList (p.textOf p.tags p.fields)) =
    passedBy (String.ofList p.opening) := by
  unfold opening
  split
  · rename_i noTags
    obtain ⟨field, more, shape⟩ := List.exists_cons_of_ne_nil p.someField
    obtain ⟨stop, tail, text, _⟩ := fieldsText_cons field more (intText p.timestamp)
    have line : p.textOf p.tags p.fields =
        (p.measurement ++ ' ' :: lpTagEscaper field.1) ++ '=' :: (field.2.written ++ stop :: tail) := by
      rw [textOf, noTags, shape]
      simp only [List.append_assoc, List.cons_append] at text ⊢
      rw [text]
      rfl
    have first : p.fields.head p.someField = field := by simp [shape]
    rw [line, first]
    exact passedBy_append (.inr rfl) _ _
  · rename_i someTags
    obtain ⟨tag, more, shape⟩ := List.exists_cons_of_ne_nil someTags
    have line : p.textOf p.tags p.fields = p.measurement ++ ',' :: (lpTagEscaper tag.1 ++
        '=' :: (lpTagEscaper tag.2 ++ (tagsText more ++
          ' ' :: (fieldsText p.fields ++ ' ' :: intText p.timestamp)))) := by
      rw [textOf, shape]
      simp [tagsText]
    rw [line]
    exact passedBy_append (.inl rfl) _ _

/-- The points that come back. -/
structure Kept : Prop where
  legible : p.Legible
  oneLine : p.Lacks '\n'
  short : p.size < maxLineBytes
  forwarded : passedBy (String.ofList p.opening) = false

theorem textOf_of_legible (legible : p.Legible) :
    p.textOf (p.tags ++ p.clashing) p.ownFields = p.textOf p.tags p.fields := by
  rw [p.clashing_eq_nil_iff.mpr legible.apart, List.append_nil, p.ownFields_of_apart legible.apart]

theorem line_of_legible (legible : p.Legible) : p.line = some (p.textOf p.tags p.fields) := by
  have someOwn : p.ownFields ≠ [] := by
    rw [p.ownFields_of_apart legible.apart]
    exact p.someField
  rw [line_eq, if_neg someOwn, p.textOf_of_legible legible]

/-- What is read of a line that was forwarded has no line break. -/
theorem lacks_of_forwarded {dump : String} {lines : List String} {data : PointData}
    (isForwarded : LineProtocol.forwarded dump = some lines)
    (reads : lines.map (fun line => readLine line.toList) = [some data]) : data.Lacks '\n' := by
  unfold LineProtocol.forwarded at isForwarded
  split at isForwarded
  · cases isForwarded
    obtain ⟨line, isLine, isData⟩ := List.map_eq_singleton_iff.mp reads
    have member : line ∈ (LineScan.textLines dump).map trimReturns :=
      List.mem_of_mem_filter (isLine ▸ List.mem_singleton.mpr rfl)
    obtain ⟨whole, inDump, rfl⟩ := List.mem_map.mp member
    refine lacks_readLine isData ?_
    have oneLine := LineScan.oneLine_of_mem_textLines inDump
    intro inTrimmed
    unfold trimReturns at inTrimmed
    rw [String.toList_ofList, List.mem_reverse] at inTrimmed
    exact oneLine (List.mem_reverse.mp ((List.dropWhile_suffix _).subset inTrimmed))
  · cases isForwarded

theorem roundTrips_iff_kept : p.RoundTrips ↔ p.Kept := by
  constructor
  · rintro ⟨text, lines, isLine, isForwarded, reads⟩
    have oneLine := lacks_of_forwarded isForwarded reads
    rw [line_eq] at isLine
    split at isLine
    · cases isLine
    cases isLine
    rw [forwarded_oneLine (p.oneLine_textOf oneLine) (p.trimReturns_textOf _ _)] at isForwarded
    by_cases short : (String.ofList (p.textOf (p.tags ++ p.clashing) p.ownFields)).utf8ByteSize <
        maxLineBytes
    · rw [if_pos short] at isForwarded
      rw [← Option.some.inj isForwarded] at reads
      cases passes : passedBy (String.ofList (p.textOf (p.tags ++ p.clashing) p.ownFields)) with
      | true =>
        rw [passes, if_pos rfl] at reads
        cases reads
      | false =>
        rw [passes, if_neg Bool.false_ne_true, List.map_singleton, List.singleton_inj,
          String.toList_ofList] at reads
        have legible := p.readLine_iff.mp reads
        rw [p.textOf_of_legible legible] at short passes
        refine ⟨legible, oneLine, ?_, ?_⟩
        · rw [← textSize_textOf]
          exact short
        · rw [← passedBy_textOf]
          exact passes
    · rw [if_neg short] at isForwarded
      cases isForwarded
  · intro kept
    have oneLine := p.oneLine_textOf kept.oneLine
    rw [p.textOf_of_legible kept.legible] at oneLine
    have short : (String.ofList (p.textOf p.tags p.fields)).utf8ByteSize < maxLineBytes := by
      rw [← textSize, textSize_textOf]
      exact kept.short
    have notPassed : passedBy (String.ofList (p.textOf p.tags p.fields)) = false := by
      rw [passedBy_textOf]
      exact kept.forwarded
    refine ⟨p.textOf p.tags p.fields, [String.ofList (p.textOf p.tags p.fields)],
      p.line_of_legible kept.legible, ?_, ?_⟩
    · rw [forwarded_oneLine oneLine (p.trimReturns_textOf _ _), if_pos short, notPassed]
      rfl
    · rw [List.map_singleton, String.toList_ofList, ← p.textOf_of_legible kept.legible,
        p.readLine_iff.mpr kept.legible]

/-- A string of two words. -/
def greeting : Point fun text => some text where
  measurement := ['m']
  tags := []
  fields := [(['f'], .text ['a', ' ', 'b'])]
  timestamp := 1
  someField := List.cons_ne_nil _ _
  distinct := by decide
  noTime := by decide
  floats := by
    intro field member text isFloat
    rw [List.mem_singleton.mp member] at isFloat
    cases isFloat

theorem greeting_not_roundTrips : ¬ greeting.RoundTrips := by
  rintro ⟨line, lines, isLine, isForwarded, reads⟩
  have written : greeting.line = some ['m', ' ', 'f', '=', '"', 'a', '\\', ' ', 'b', '"', ' ', '1'] :=
    by decide +kernel
  have sent : forwarded (String.ofList
      (['m', ' ', 'f', '=', '"', 'a', '\\', ' ', 'b', '"', ' ', '1'] ++ ['\n'])) =
      some ["m f=\"a\\ b\" 1"] := by
    decide +kernel
  rw [written] at isLine
  cases isLine
  rw [sent] at isForwarded
  cases isForwarded
  exact absurd reads (by decide +kernel)

end Point

end DbBackup.Engine.Influx.LineProtocol
