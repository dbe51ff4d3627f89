import DbBackup.Lib.Duration
import DbBackup.Lib.GoString

/-!
Owns the number readers of Go's library: `strconv.Atoi`, and `fmt.Sscanf` for
the formats of the development (`+%d`, `%2d%2d` and `%2d:%2d`).

Contract: how large a number of bounded width can be (`scanInt_two`,
`scanInt_two_plus`), and that the decimal digits of a number read back as that
number (`atoi_toDigits`).
-/

set_option linter.all false

namespace DbBackup.Lib.Scan

open Lib.Duration Lib.GoString

def digitsValue (digits : List Char) : Nat :=
  digits.foldl (fun value c => 10 * value + (c.toNat - '0'.toNat)) 0

/-- Whether the text starts with a minus sign, and what follows its sign. -/
def splitSign : List Char → Bool × List Char
  | '-' :: rest => (true, rest)
  | '+' :: rest => (false, rest)
  | text => (false, text)

def signedValue (negative : Bool) (digits : List Char) : Int :=
  if negative then -(digitsValue digits : Int) else digitsValue digits

/-- `strconv.Atoi`: the value, and whether the text was a number in range. Out
of range the value is the nearest one. -/
def atoi (text : String) : Int × Bool :=
  let (negative, digits) := splitSign text.toList
  let value := signedValue negative digits
  if digits = [] ∨ digits.all Char.isDigit = false then (0, false)
  else if maxDuration < value then (maxDuration, false)
  else if value < minDuration then (minDuration, false)
  else (value, true)

/-- The number, where the text is one. -/
def atoi? (text : String) : Option Int :=
  if (atoi text).2 then some (atoi text).1 else none

/-! ### Digits read back -/

theorem digitsValue_toDigits (n : Nat) : digitsValue (Nat.toDigits 10 n) = n :=
  (Nat.ofDigitChars_eq_foldl).symm.trans Nat.ofDigitChars_ten_toDigits

theorem isDigit_toDigits (n : Nat) : ∀ c ∈ Nat.toDigits 10 n, c.isDigit = true :=
  fun _ member => Nat.isDigit_of_mem_toDigits (by omega) (by omega) member

theorem toString_toList (n : Nat) : (toString n).toList = Nat.toDigits 10 n := by
  simp [Nat.repr]

theorem toString_isDigit (n : Nat) : ∀ c ∈ (toString n).toList, c.isDigit = true := by
  rw [toString_toList]
  exact isDigit_toDigits n

/-- What holds of the ten digits holds of every digit. -/
theorem isDigit_all {p : Char → Bool} (all : "0123456789".toList.all p = true) {c : Char}
    (isDigit : c.isDigit = true) : p c = true := by
  have bounds := Char.isDigit_iff_toNat.mp isDigit
  have zero : '0'.toNat = 48 := rfl
  have nine : '9'.toNat = 57 := rfl
  have oneOf : c.toNat = 48 ∨ c.toNat = 49 ∨ c.toNat = 50 ∨ c.toNat = 51 ∨ c.toNat = 52 ∨
      c.toNat = 53 ∨ c.toNat = 54 ∨ c.toNat = 55 ∨ c.toNat = 56 ∨ c.toNat = 57 := by
    omega
  have listed : c ∈ "0123456789".toList := by
    rw [← Char.ofNat_toNat c]
    rcases oneOf with code | code | code | code | code | code | code | code | code | code <;>
      rw [code] <;> decide
  exact List.all_eq_true.mp all c listed

theorem splitSign_digits {digits : List Char} (allDigits : ∀ c ∈ digits, c.isDigit = true) :
    splitSign digits = (false, digits) := by
  cases digits with
  | nil => rfl
  | cons c rest =>
    have isDigit := allDigits c List.mem_cons_self
    unfold splitSign
    split
    · rename_i minus
      rw [(List.cons.inj minus).1] at isDigit
      exact absurd isDigit (by decide)
    · rename_i plus
      rw [(List.cons.inj plus).1] at isDigit
      exact absurd isDigit (by decide)
    · rfl

theorem atoi_toDigits {n : Nat} (inRange : (n : Int) ≤ maxDuration) :
    atoi (String.ofList (Nat.toDigits 10 n)) = ((n : Int), true) := by
  have unsigned := splitSign_digits (isDigit_toDigits n)
  have allDigits : (Nat.toDigits 10 n).all Char.isDigit = true :=
    List.all_eq_true.mpr (isDigit_toDigits n)
  have notNegative : ¬ (n : Int) < minDuration := by
    unfold minDuration
    omega
  unfold atoi
  rw [String.toList_ofList, unsigned]
  simp only [signedValue, digitsValue_toDigits, allDigits, Nat.toDigits_ne_nil, Bool.false_eq_true,
    Bool.true_eq_false, or_self, ↓reduceIte]
  rw [if_neg (by omega), if_neg notNegative]

/-! ### Shape of a number -/

theorem splitSign_shape (text : List Char) :
    ∃ sign, text = sign ++ (splitSign text).2 ∧ (sign = [] ∨ sign = ['-'] ∨ sign = ['+']) := by
  unfold splitSign
  split
  · exact ⟨['-'], rfl, .inr (.inl rfl)⟩
  · exact ⟨['+'], rfl, .inr (.inr rfl)⟩
  · exact ⟨[], rfl, .inl rfl⟩

variable {text : String}

/-- A number is digits, with at most a sign before them. -/
theorem atoi?_shape {n : Int} (number : atoi? text = some n) :
    ∃ sign digits, text.toList = sign ++ digits ∧ (sign = [] ∨ sign = ['-'] ∨ sign = ['+']) ∧
      digits ≠ [] ∧ ∀ c ∈ digits, c.isDigit = true := by
  have plain : ¬ ((splitSign text.toList).2 = [] ∨
      (splitSign text.toList).2.all Char.isDigit = false) := by
    intro bad
    unfold atoi? atoi at number
    simp only [if_pos bad] at number
    cases number
  obtain ⟨sign, shape, isSign⟩ := splitSign_shape text.toList
  rw [not_or, Bool.not_eq_false] at plain
  exact ⟨sign, _, shape, isSign, plain.1, List.all_eq_true.mp plain.2⟩

theorem not_mem_of_atoi? {n : Int} (number : atoi? text = some n) {c : Char}
    (noSign : c ≠ '-' ∧ c ≠ '+') (noDigit : c.isDigit = false) : c ∉ text.toList := by
  obtain ⟨sign, digits, shape, isSign, -, allDigits⟩ := atoi?_shape number
  rw [shape, List.mem_append]
  rintro (inSign | inDigits)
  · rcases isSign with rfl | rfl | rfl
    · cases inSign
    · exact noSign.1 (List.mem_singleton.mp inSign)
    · exact noSign.2 (List.mem_singleton.mp inSign)
  · rw [allDigits c inDigits] at noDigit
    cases noDigit

/-! ### Sscanf -/

/-- `SkipSpace`; a line break is an error. -/
def skipSpace : List Char → Option (List Char)
  | [] => some []
  | c :: rest =>
    if c = '\n' then none else if isSpace c then skipSpace rest else some (c :: rest)

/-- The sign and the digits of a number within its width, and the text after. -/
def numberParts (width : Option Nat) (text : List Char) : Bool × List Char × List Char :=
  let field := match width with
    | some limit => text.take limit
    | none => text
  let (negative, unsigned) := splitSign field
  let digits := unsigned.takeWhile Char.isDigit
  (negative, digits, text.drop (field.length - unsigned.length + digits.length))

/-- The verb `%d`, with or without a width. -/
def scanInt (width : Option Nat) (text : List Char) : Option (Int × List Char) :=
  (skipSpace text).bind fun text =>
    let (negative, digits, rest) := numberParts width text
    let value := signedValue negative digits
    if digits = [] ∨ maxDuration < value ∨ value < minDuration then none else some (value, rest)

/-- `Sscanf(text, "+%d", &m)`: the number, zero where there is none. -/
def scanPlus (text : String) : Int :=
  match text.toList with
  | '+' :: rest => ((scanInt none rest).map Prod.fst).getD 0
  | _ => 0

/-- `Sscanf(text, "%2d" + separator + "%2d", &h, &m)`: both numbers, zero where
the scan did not get there, and whether it got to the end. -/
def scanPair (separator : List Char) (text : String) : Int × Int × Bool :=
  match scanInt (some 2) text.toList with
  | none => (0, 0, false)
  | some (h, rest) =>
    if separator.isPrefixOf rest then
      match scanInt (some 2) (rest.drop separator.length) with
      | none => (h, 0, false)
      | some (m, _) => (h, m, true)
    else (h, 0, false)

/-! ### Bounds -/

theorem digit_le_nine {c : Char} (isDigit : c.isDigit = true) : c.toNat - '0'.toNat ≤ 9 := by
  have bounds := Char.isDigit_iff_toNat.mp isDigit
  have zero : '0'.toNat = 48 := rfl
  have nine : '9'.toNat = 57 := rfl
  omega

theorem digitsValue_le {digits : List Char} (allDigits : ∀ c ∈ digits, c.isDigit = true)
    {bound : Nat} (short : digits.length ≤ bound) (two : bound ≤ 2) :
    digitsValue digits ≤ 10 ^ bound - 1 := by
  match digits with
  | [] => exact Nat.zero_le _
  | [c] =>
    have first := digit_le_nine (allDigits c (by simp))
    have positive : bound = 1 ∨ bound = 2 := by
      simp at short
      omega
    simp only [digitsValue, List.foldl_cons, List.foldl_nil]
    rcases positive with rfl | rfl <;> omega
  | [c, d] =>
    have first := digit_le_nine (allDigits c (by simp))
    have second := digit_le_nine (allDigits d (by simp))
    have isTwo : bound = 2 := by
      simp at short
      omega
    subst isTwo
    simp only [digitsValue, List.foldl_cons, List.foldl_nil]
    omega
  | _ :: _ :: _ :: _ =>
    simp at short
    omega

theorem takeWhile_isDigit_le {field : List Char} {bound : Nat} (short : field.length ≤ bound)
    (two : bound ≤ 2) : digitsValue (field.takeWhile Char.isDigit) ≤ 10 ^ bound - 1 := by
  apply digitsValue_le _ _ two
  · intro c member
    exact List.mem_takeWhile_imp member
  · exact (List.takeWhile_sublist _).length_le.trans short

theorem splitSign_cases (field : List Char) :
    splitSign field = (false, field) ∨ ∃ sign, field = sign :: (splitSign field).2 := by
  unfold splitSign
  split
  · exact .inr ⟨_, rfl⟩
  · exact .inr ⟨_, rfl⟩
  · exact .inl rfl

variable {value : Int}

theorem scanInt_eq_some {width : Option Nat} {text rest : List Char}
    (scanned : scanInt width text = some (value, rest)) :
    ∃ body, skipSpace text = some body ∧
      value = signedValue (numberParts width body).1 (numberParts width body).2.1 := by
  obtain ⟨body, skipped, read⟩ := Option.bind_eq_some_iff.mp scanned
  refine ⟨body, skipped, ?_⟩
  simp only at read
  split at read
  · cases read
  · exact (Prod.mk.inj (Option.some.inj read)).1.symm

/-- A number of width two has two digits, or a sign and one. -/
theorem scanInt_two {text rest : List Char}
    (scanned : scanInt (some 2) text = some (value, rest)) : -9 ≤ value ∧ value ≤ 99 := by
  obtain ⟨body, -, rfl⟩ := scanInt_eq_some scanned
  have short : (body.take 2).length ≤ 2 := by
    rw [List.length_take]
    omega
  unfold numberParts signedValue
  simp only
  rcases splitSign_cases (body.take 2) with unsigned | ⟨sign, shape⟩
  · have bound := takeWhile_isDigit_le short (Nat.le_refl 2)
    rw [unsigned]
    simp only [Bool.false_eq_true, ↓reduceIte]
    omega
  · have shorter : (splitSign (body.take 2)).2.length ≤ 1 := by
      rw [shape, List.length_cons] at short
      omega
    have bound := takeWhile_isDigit_le shorter (by omega)
    split <;> omega

theorem scanInt_two_plus {text body rest : List Char}
    (skipped : skipSpace text = some ('+' :: body))
    (scanned : scanInt (some 2) text = some (value, rest)) : 0 ≤ value ∧ value ≤ 9 := by
  obtain ⟨found, isFound, rfl⟩ := scanInt_eq_some scanned
  rw [skipped] at isFound
  rw [← Option.some.inj isFound]
  have shape : splitSign (('+' :: body).take 2) = (false, body.take 1) := rfl
  have bound := @takeWhile_isDigit_le (body.take 1) 1 (by rw [List.length_take]; omega) (by omega)
  unfold numberParts signedValue
  simp only [shape, Bool.false_eq_true, ↓reduceIte]
  omega

theorem skipSpace_cases (text : List Char) :
    skipSpace text = none ∨ skipSpace text = some (text.dropWhile isSpace) := by
  induction text with
  | nil => exact .inr rfl
  | cons c rest ih =>
    rw [skipSpace]
    by_cases newline : c = '\n'
    · exact .inl (if_pos newline)
    · rw [if_neg newline]
      by_cases blank : isSpace c = true
      · rw [if_pos blank, List.dropWhile_cons_of_pos blank]
        exact ih
      · rw [if_neg blank, List.dropWhile_cons_of_neg blank]
        exact .inr rfl

theorem scanInt_eq_none {width : Option Nat} {text : List Char} (skipped : skipSpace text = none) :
    scanInt width text = none := by
  unfold scanInt
  rw [skipped]
  rfl

/-- Both numbers of a scan whose first one starts with a plus sign are small. -/
theorem scanPair_plus {body : List Char} (begins : text.toList.dropWhile isSpace = '+' :: body) :
    (0 ≤ (scanPair [] text).1 ∧ (scanPair [] text).1 ≤ 9) ∧
      -9 ≤ (scanPair [] text).2.1 ∧ (scanPair [] text).2.1 ≤ 99 := by
  unfold scanPair
  cases first : scanInt (some 2) text.toList with
  | none => simp
  | some scanned =>
    obtain ⟨h, rest⟩ := scanned
    have firstBound : 0 ≤ h ∧ h ≤ 9 := by
      rcases skipSpace_cases text.toList with stopped | skipped
      · rw [scanInt_eq_none stopped] at first
        cases first
      · rw [begins] at skipped
        exact scanInt_two_plus skipped first
    simp only [List.isPrefixOf_nil_left, if_true, List.length_nil, List.drop_zero]
    cases second : scanInt (some 2) rest with
    | none => exact ⟨firstBound, by simp⟩
    | some scanned => exact ⟨firstBound, scanInt_two second⟩

end DbBackup.Lib.Scan
