import Mathlib.Data.List.TakeWhile

/-!
Owns SQL names as a PostgreSQL server reads them: text between quotes that are written
twice inside, identifiers with and without quotes, names of two parts in a statement,
and the names in a `regclass` literal.

Contract: a quoted name is read back whatever it holds (`readIdent_quoted`). A first part
that is written into a `regclass` literal without quotes is read back exactly when it is
`Plain` (`readRegclass_bare_iff`).

Names are not cut at 63 bytes, since they come from the server's catalogue.
-/

set_option linter.all false

namespace DbBackup.Lib.SqlName

/-! ### Quotes written twice -/

def doubled (quote : Char) (chars : List Char) : List Char :=
  chars.flatMap fun c => if c = quote then [quote, quote] else [c]

/-- The text up to the closing quote, and what follows it. -/
def readQuoted (quote : Char) : List Char → Option (List Char × List Char)
  | [] => none
  | c :: rest =>
    if c = quote then
      match rest with
      | d :: more =>
        if d = quote then (readQuoted quote more).map fun read => (quote :: read.1, read.2)
        else some ([], d :: more)
      | [] => some ([], [])
    else (readQuoted quote rest).map fun read => (c :: read.1, read.2)

theorem readQuoted_double (quote : Char) (rest : List Char) :
    readQuoted quote (quote :: quote :: rest) =
      (readQuoted quote rest).map fun read => (quote :: read.1, read.2) := by
  simp [readQuoted]

theorem readQuoted_other {quote c : Char} (notQuote : c ≠ quote) (rest : List Char) :
    readQuoted quote (c :: rest) =
      (readQuoted quote rest).map fun read => (c :: read.1, read.2) := by
  rw [readQuoted.eq_def]
  simp only [if_neg notQuote]

theorem doubled_cons (quote c : Char) (rest : List Char) : doubled quote (c :: rest) =
      (if c = quote then [quote, quote] else [c]) ++ doubled quote rest :=
  List.flatMap_cons ..

theorem readQuoted_doubled {quote : Char} (chars : List Char) {rest : List Char}
    (ends : rest.head? ≠ some quote) :
    readQuoted quote (doubled quote chars ++ quote :: rest) = some (chars, rest) := by
  induction chars with
  | nil =>
    cases rest with
    | nil =>
      rw [doubled, List.flatMap_nil, List.nil_append, readQuoted, if_pos rfl]
    | cons c more =>
      have differs : c ≠ quote := fun same => ends (congrArg some same)
      rw [doubled, List.flatMap_nil, List.nil_append, readQuoted, if_pos rfl]
      simp only [if_neg differs]
  | cons c others ih =>
    rw [doubled_cons]
    by_cases isQuote : c = quote
    · rw [if_pos isQuote, List.append_assoc, List.cons_append, List.cons_append, List.nil_append,
        readQuoted_double, ih, isQuote]
      rfl
    · rw [if_neg isQuote, List.append_assoc, List.singleton_append, readQuoted_other isQuote,
        ih]
      rfl

/-- What was read stands there with its quotes written twice. -/
theorem eq_of_readQuoted {quote : Char} (text : List Char) :
    ∀ {chars rest : List Char}, readQuoted quote text = some (chars, rest) →
      text = doubled quote chars ++ quote :: rest := by
  fun_induction readQuoted quote text with
  | case1 => exact fun read => nomatch read
  | case2 more ih =>
    intro chars rest read
    obtain ⟨⟨front, after⟩, inner, shape⟩ := Option.map_eq_some_iff.mp read
    obtain ⟨rfl, rfl⟩ := Prod.mk.inj shape
    rw [doubled_cons, if_pos rfl, List.append_assoc, ← ih inner]
    rfl
  | case3 d more notQuote =>
    intro chars rest read
    obtain ⟨rfl, rfl⟩ := Prod.mk.inj (Option.some.inj read)
    rfl
  | case4 =>
    intro chars rest read
    obtain ⟨rfl, rfl⟩ := Prod.mk.inj (Option.some.inj read)
    rfl
  | case5 c others notQuote ih =>
    intro chars rest read
    obtain ⟨⟨front, after⟩, inner, shape⟩ := Option.map_eq_some_iff.mp read
    obtain ⟨rfl, rfl⟩ := Prod.mk.inj shape
    rw [doubled_cons, if_neg notQuote, List.append_assoc, ← ih inner]
    rfl

/-! ### Identifiers -/

def isIdentStart (c : Char) : Bool :=
  c.isAlpha || c = '_' || 128 ≤ c.toNat

def isIdentChar (c : Char) : Bool :=
  isIdentStart c || c.isDigit || c = '$'

/-- An identifier and what follows it. Without quotes it is folded to lower case. -/
def readIdent : List Char → Option (List Char × List Char)
  | [] => none
  | c :: rest =>
    if c = '"' then
      match readQuoted '"' rest with
      | some ([], _) => none
      | read => read
    else if isIdentStart c then
      some (((c :: rest).takeWhile isIdentChar).map Char.toLower,
        (c :: rest).dropWhile isIdentChar)
    else none

def quoted (chars : List Char) : List Char :=
  '"' :: doubled '"' chars ++ ['"']

theorem readIdent_quoted {chars rest : List Char} (nonempty : chars ≠ [])
    (ends : rest.head? ≠ some '"') : readIdent (quoted chars ++ rest) = some (chars, rest) := by
  have read := readQuoted_doubled chars ends
  rw [quoted, List.append_assoc, List.cons_append, List.singleton_append, readIdent, if_pos rfl,
    read]
  cases chars with
  | nil => exact absurd rfl nonempty
  | cons c more => rfl

/-- A name of two parts and what follows it. -/
def readQualified (text : List Char) : Option ((List Char × List Char) × List Char) :=
  match readIdent text with
  | some (first, '.' :: rest) =>
    match readIdent rest with
    | some (second, after) => some ((first, second), after)
    | none => none
  | _ => none

theorem readQualified_quoted {first second rest : List Char} (firstSome : first ≠ [])
    (secondSome : second ≠ []) (ends : rest.head? ≠ some '"') :
    readQualified (quoted first ++ '.' :: quoted second ++ rest) =
      some ((first, second), rest) := by
  have dot : ('.' :: quoted second ++ rest).head? ≠ some '"' := by
    intro same
    exact absurd (Option.some.inj same) (by decide)
  rw [readQualified, List.append_assoc, readIdent_quoted firstSome dot]
  simp only [List.cons_append]
  rw [readIdent_quoted secondSome ends]

theorem readIdent_quoted_nil {rest : List Char} (ends : rest.head? ≠ some '"') :
    readIdent (quoted [] ++ rest) = none := by
  have read := @readQuoted_doubled '"' [] rest ends
  rw [quoted, List.append_assoc, List.cons_append, List.singleton_append, readIdent, if_pos rfl,
    read]

theorem readQualified_quoted_empty {first second rest : List Char}
    (isEmpty : first = [] ∨ second = []) (ends : rest.head? ≠ some '"') :
    readQualified (quoted first ++ '.' :: (quoted second ++ rest)) = none := by
  have dot : ('.' :: (quoted second ++ rest)).head? ≠ some '"' := by
    intro same
    exact absurd (Option.some.inj same) (by decide)
  by_cases firstEmpty : first = []
  · rw [readQualified, firstEmpty, readIdent_quoted_nil dot]
  · have secondEmpty := isEmpty.resolve_left firstEmpty
    rw [readQualified, readIdent_quoted firstEmpty dot]
    simp only
    rw [secondEmpty, readIdent_quoted_nil ends]

/-! ### `regclass` literals -/

def isNameSpace (c : Char) : Bool :=
  c = ' ' || c = '\t' || c = '\n' || c = '\r' || c = '\x0b' || c = '\x0c'

def ends (c : Char) : Bool :=
  c = '.' || isNameSpace c

/-- One part of a name. Without quotes it runs to a dot or a space. -/
def regclassPart : List Char → Option (List Char × List Char)
  | [] => none
  | c :: rest =>
    if c = '"' then readQuoted '"' rest
    else if ends c then none
    else
      some (((c :: rest).takeWhile fun d => !ends d).map Char.toLower,
        (c :: rest).dropWhile fun d => !ends d)

/-- The parts between dots; there are at most as many as characters. -/
def regclassNames : Nat → List Char → Option (List (List Char))
  | 0, _ => none
  | fuel + 1, text =>
    match regclassPart (text.dropWhile isNameSpace) with
    | none => none
    | some (part, rest) =>
      match rest.dropWhile isNameSpace with
      | [] => some [part]
      | '.' :: more => (regclassNames fuel more).map (part :: ·)
      | _ => none

/-- The schema and the relation; a name of one part or of three names no schema here. -/
def readRegclass (text : List Char) : Option (List Char × List Char) :=
  match regclassNames (text.length + 1) text with
  | some [schema, name] => some (schema, name)
  | _ => none

/-- A name that is read the same without quotes in a `regclass` literal. -/
structure Plain (chars : List Char) : Prop where
  noQuote : chars.head? ≠ some '"'
  noEnd : ∀ c ∈ chars, ends c = false
  lower : ∀ c ∈ chars, c.toLower = c

/-- A first part without quotes, and a second part in quotes. -/
def bareQualified (schema name : List Char) : List Char :=
  schema ++ '.' :: quoted name

theorem regclassPart_quoted (chars : List Char) : regclassPart (quoted chars) = some (chars, []) := by
  have read := @readQuoted_doubled '"' chars [] (by simp)
  rw [quoted, List.cons_append, regclassPart, if_pos rfl, read]

theorem regclassNames_quoted (fuel : Nat) (name : List Char) :
    regclassNames (fuel + 1) (quoted name) = some [name] := by
  have noSpace : (quoted name).dropWhile isNameSpace = quoted name := rfl
  rw [regclassNames, noSpace, regclassPart_quoted]
  rfl

variable {schema : List Char}

theorem dropWhile_bare (plain : Plain schema) (rest : List Char) :
    (schema ++ '.' :: rest).dropWhile isNameSpace = schema ++ '.' :: rest := by
  cases schema with
  | nil => rfl
  | cons c more =>
    have notEnd := plain.noEnd c List.mem_cons_self
    rw [ends, Bool.or_eq_false_iff] at notEnd
    rw [List.cons_append, List.dropWhile_cons_of_neg (by rw [notEnd.2]; decide)]

theorem regclassPart_bare (nonempty : schema ≠ []) (plain : Plain schema)
    (rest : List Char) : regclassPart (schema ++ '.' :: rest) = some (schema, '.' :: rest) := by
  obtain ⟨c, more, rfl⟩ := List.exists_cons_of_ne_nil nonempty
  have notQuote : c ≠ '"' := fun same => plain.noQuote (congrArg some same)
  have notEnd := plain.noEnd c List.mem_cons_self
  have stays : ∀ d ∈ c :: more, (!ends d) = true := by
    intro d member
    rw [plain.noEnd d member]
    rfl
  have taken : ((c :: more) ++ '.' :: rest).takeWhile (fun d => !ends d) = c :: more := by
    rw [List.takeWhile_append_of_pos stays]
    exact List.append_nil _
  have dropped : ((c :: more) ++ '.' :: rest).dropWhile (fun d => !ends d) = '.' :: rest := by
    rw [List.dropWhile_append_of_pos stays]
    rfl
  have folded : (c :: more).map Char.toLower = c :: more := by
    conv => rhs; rw [← List.map_id (c :: more)]
    exact List.map_congr_left fun d member => plain.lower d member
  rw [List.cons_append] at taken dropped ⊢
  rw [regclassPart, if_neg notQuote, if_neg (by rw [notEnd]; decide), taken, dropped, folded]

theorem readRegclass_of_plain (nonempty : schema ≠ []) (plain : Plain schema)
    (name : List Char) : readRegclass (bareQualified schema name) = some (schema, name) := by
  obtain ⟨size, isSize⟩ : ∃ size, (bareQualified schema name).length = size + 1 := by
    refine ⟨(bareQualified schema name).length - 1, ?_⟩
    rw [bareQualified, List.length_append, List.length_cons]
    omega
  have second := regclassNames_quoted size name
  have names : regclassNames (size + 1 + 1) (bareQualified schema name) = some [schema, name] := by
    rw [bareQualified, regclassNames, dropWhile_bare plain, regclassPart_bare nonempty plain]
    have noSpace : ('.' :: quoted name).dropWhile isNameSpace = '.' :: quoted name := rfl
    simp only [noSpace, second]
    rfl
  rw [readRegclass, isSize, names]

theorem takeWhile_doubled_length (chars rest : List Char) : (chars.takeWhile (· ≠ '.')).length ≤
      ((doubled '"' chars ++ rest).takeWhile (· ≠ '.')).length := by
  induction chars with
  | nil => exact Nat.zero_le _
  | cons c others ih =>
    rw [doubled_cons]
    by_cases isDot : c = '.'
    · rw [isDot]
      exact Nat.zero_le _
    · rw [List.takeWhile_cons_of_pos (by simpa using isDot)]
      by_cases isQuote : c = '"'
      · rw [if_pos isQuote, List.append_assoc, List.cons_append,
          List.takeWhile_cons_of_pos (by decide), List.cons_append, List.nil_append,
          List.takeWhile_cons_of_pos (by decide)]
        simp only [List.length_cons]
        omega
      · rw [if_neg isQuote, List.append_assoc, List.singleton_append,
          List.takeWhile_cons_of_pos (by simpa using isDot)]
        simp only [List.length_cons]
        omega

/-- A quoted name that begins with the text cannot be the text up to a dot: it would be
longer than itself. -/
theorem not_quoted_before_dot {spaces schema after rest : List Char} (noDot : ∀ c ∈ spaces, c ≠ '.')
    (shape : schema ++ '.' :: after = spaces ++ '"' :: (doubled '"' schema ++ '"' :: rest)) :
    False := by
  have left : (schema ++ '.' :: after).takeWhile (· ≠ '.') = schema.takeWhile (· ≠ '.') := by
    rw [List.takeWhile_append]
    split
    · next whole =>
        rw [List.takeWhile_cons_of_neg (by simp), List.append_nil]
        exact (List.IsPrefix.eq_of_length (List.takeWhile_prefix _) whole).symm
    · rfl
  have right : ((spaces ++ '"' :: (doubled '"' schema ++ '"' :: rest)).takeWhile
      (· ≠ '.')).length =
      spaces.length + (1 + ((doubled '"' schema ++ '"' :: rest).takeWhile (· ≠ '.')).length) := by
    rw [List.takeWhile_append_of_pos (by simpa using noDot), List.length_append,
      List.takeWhile_cons_of_pos (by decide), List.length_cons]
    omega
  have grows := takeWhile_doubled_length schema ('"' :: rest)
  have same := congrArg (fun text => (text.takeWhile (· ≠ '.')).length) shape
  simp only [right] at same
  rw [left] at same
  omega

/-! ### Lower case -/

/-- Folding keeps a character or gives a small letter. -/
theorem toLower_cases (c : Char) :
    c.toLower = c ∨ (97 ≤ c.toLower.toNat ∧ c.toLower.toNat ≤ 122) := by
  delta Char.toLower
  split
  · next upper =>
      refine .inr ?_
      have low : 65 ≤ c.val.toNat := UInt32.le_iff_toNat_le.mp upper.1
      have high : c.val.toNat ≤ 90 := UInt32.le_iff_toNat_le.mp upper.2
      have value : (c.val + ('a'.val - 'A'.val)).toNat = c.val.toNat + 32 := by
        rw [UInt32.toNat_add]
        change (c.val.toNat + 32) % 2 ^ 32 = _
        omega
      change 97 ≤ (c.val + ('a'.val - 'A'.val)).toNat ∧ (c.val + ('a'.val - 'A'.val)).toNat ≤ 122
      omega
  · exact .inl rfl

theorem toLower_of_small {c : Char} (small : 97 ≤ c.toNat) : c.toLower = c := by
  delta Char.toLower
  split
  · next upper =>
      have high : c.val.toNat ≤ 90 := UInt32.le_iff_toNat_le.mp upper.2
      change 97 ≤ c.val.toNat at small
      omega
  · rfl

theorem toLower_toLower (c : Char) : c.toLower.toLower = c.toLower := by
  rcases toLower_cases c with same | small
  · rw [same, same]
  · exact toLower_of_small small.1

theorem eq_quote_of_toLower {c : Char} (folded : c.toLower = '"') : c = '"' := by
  rcases toLower_cases c with same | small
  · exact same.symm.trans folded
  · rw [folded] at small
    exact absurd small.1 (by decide)

theorem ends_of_small {c : Char} (small : 97 ≤ c.toNat) : ends c = false := by
  have differs : ∀ mark : Char, mark.toNat < 97 → decide (c = mark) = false := by
    intro mark below
    refine decide_eq_false ?_
    rintro rfl
    omega
  rw [ends, isNameSpace, differs '.' (by decide), differs ' ' (by decide), differs '\t' (by decide),
    differs '\n' (by decide), differs '\r' (by decide), differs '\x0b' (by decide),
    differs '\x0c' (by decide)]
  rfl

theorem ends_toLower {c : Char} (notEnd : ends c = false) : ends c.toLower = false := by
  rcases toLower_cases c with same | small
  · rw [same]
    exact notEnd
  · exact ends_of_small small.1

/-- The first part is read as written only where it is plain. -/
theorem plain_of_regclassPart {schema name part rest : List Char}
    (read : regclassPart ((bareQualified schema name).dropWhile isNameSpace) = some (part, rest))
    (same : part = schema) : Plain schema := by
  have split : (bareQualified schema name).takeWhile isNameSpace ++
      (bareQualified schema name).dropWhile isNameSpace = schema ++ '.' :: quoted name :=
    List.takeWhile_append_dropWhile
  have noDot : ∀ c ∈ (bareQualified schema name).takeWhile isNameSpace, c ≠ '.' := by
    rintro c member rfl
    exact absurd (List.mem_takeWhile_imp member) (by decide)
  cases form : (bareQualified schema name).dropWhile isNameSpace with
  | nil =>
    rw [form] at read
    exact nomatch read
  | cons c more =>
    rw [form] at read split
    rw [regclassPart] at read
    by_cases isQuote : c = '"'
    · rw [if_pos isQuote] at read
      have shape := eq_of_readQuoted more read
      rw [same] at shape
      rw [isQuote, shape] at split
      exact (not_quoted_before_dot noDot split.symm).elim
    · rw [if_neg isQuote] at read
      by_cases isEnd : ends c = true
      · rw [if_pos isEnd] at read
        exact nomatch read
      · rw [if_neg isEnd] at read
        obtain ⟨isPart, -⟩ := Prod.mk.inj (Option.some.inj read)
        rw [same] at isPart
        refine ⟨?_, ?_, ?_⟩
        · rw [← isPart, List.takeWhile_cons_of_pos (by simpa using isEnd), List.map_cons]
          intro isHead
          exact isQuote (eq_quote_of_toLower (Option.some.inj isHead))
        · intro d member
          rw [← isPart] at member
          obtain ⟨source, inWord, rfl⟩ := List.mem_map.mp member
          have notEnd := List.mem_takeWhile_imp inWord
          rw [Bool.not_eq_true'] at notEnd
          exact ends_toLower notEnd
        · intro d member
          rw [← isPart] at member
          obtain ⟨source, -, rfl⟩ := List.mem_map.mp member
          exact toLower_toLower source

/-- The names read begin with the first part. -/
theorem regclassNames_head {fuel : Nat} {text first : List Char} {others : List (List Char)}
    (read : regclassNames (fuel + 1) text = some (first :: others)) :
    ∃ rest, regclassPart (text.dropWhile isNameSpace) = some (first, rest) := by
  rw [regclassNames] at read
  cases part : regclassPart (text.dropWhile isNameSpace) with
  | none =>
    simp only [part] at read
    exact nomatch read
  | some pair =>
    obtain ⟨own, rest⟩ := pair
    refine ⟨rest, ?_⟩
    simp only [part] at read
    split at read
    · rw [(List.cons.inj (Option.some.inj read)).1]
    · obtain ⟨names, -, shape⟩ := Option.map_eq_some_iff.mp read
      rw [(List.cons.inj shape).1]
    · exact nomatch read

theorem readRegclass_bare_iff (nonempty : schema ≠ []) (name : List Char) :
    readRegclass (bareQualified schema name) = some (schema, name) ↔ Plain schema := by
  constructor
  · intro read
    rw [readRegclass] at read
    split at read
    · next first second names =>
        obtain ⟨rest, part⟩ := regclassNames_head names
        obtain ⟨isSchema, -⟩ := Prod.mk.inj (Option.some.inj read)
        exact plain_of_regclassPart part isSchema
    · exact nomatch read
  · exact fun plain => readRegclass_of_plain nonempty plain name

end DbBackup.Lib.SqlName
