import DbBackup.Lib.GoString
import Mathlib.Algebra.Order.Field.Rat
import Mathlib.Tactic.FieldSimp
import Mathlib.Tactic.Ring

/-!
Owns `formatCopyNumeric` of `internal/database/engine/postgres/postgres.go`: the text
of a `numeric` value in COPY data.

Contract: a finite value `i · 10^e` is written as a decimal that denotes exactly that
number, with `max 0 (-e)` digits after the point and at least one before it
(`formatCopyNumeric_exact`).

`pgtype.Numeric` keeps its exponent in an `int32`, so the code's `-v.Exp` wraps at
the smallest exponent; that one value makes it slice out of bounds.
-/

set_option linter.all false

namespace DbBackup.Engine.Postgres.CopyNumeric

open Lib.GoString

/-! ### The value and its text -/

inductive InfinityModifier where
  | infinity
  | finite
  | negativeInfinity
deriving DecidableEq

/-- `pgtype.Numeric` of a value that is not null. -/
structure Numeric where
  int : Option Int
  exp : Int32
  nan : Bool
  infinityModifier : InfinityModifier

/-- `strings.Repeat("0", n)`. -/
def zeros (count : Nat) : List Char :=
  List.replicate count '0'

/-- Where the point goes in the digits of the integer; `none` is a slice out of bounds. -/
def placePoint (dig : List Char) (exp : Int32) : Option (List Char) :=
  if 0 ≤ exp then some (dig ++ zeros exp.toInt.toNat)
  else
    let k : Int := (-exp).toInt
    if (dig.length : Int) ≤ k then
      some ('0' :: '.' :: zeros (k - dig.length).toNat ++ dig)
    else if 0 ≤ k then
      let cut := dig.length - k.toNat
      some (dig.take cut ++ '.' :: dig.drop cut)
    else none

def formatCopyNumeric (v : Numeric) : Option String :=
  if v.nan then some "NaN"
  else
    match v.infinityModifier, v.int with
    | .infinity, _ => some "Infinity"
    | .negativeInfinity, _ => some "-Infinity"
    | .finite, none => some "0"
    | .finite, some int =>
      let text := (toString int).toList
      let neg := ['-'].isPrefixOf text
      let dig := if neg then text.drop 1 else text
      (placePoint dig v.exp).map fun out =>
        String.ofList (if neg then '-' :: out else out)

def ofInt (int : Int) (exp : Int32) : Numeric :=
  { int := some int, exp := exp, nan := false, infinityModifier := .finite }

/-! ### Reading a decimal number -/

structure Decimal where
  negative : Bool
  whole : List Char
  fraction : List Char
deriving DecidableEq

def Decimal.magnitude (decimal : Decimal) : ℚ :=
  Nat.ofDigitChars 10 (decimal.whole ++ decimal.fraction) 0 / 10 ^ decimal.fraction.length

def Decimal.value (decimal : Decimal) : ℚ :=
  if decimal.negative then -decimal.magnitude else decimal.magnitude

def readUnsigned (negative : Bool) (text : List Char) : Option Decimal :=
  let whole := text.takeWhile Char.isDigit
  match text.dropWhile Char.isDigit with
  | [] => some ⟨negative, whole, []⟩
  | mark :: fraction =>
    if mark = '.' ∧ fraction.all Char.isDigit then some ⟨negative, whole, fraction⟩ else none

def readDecimal (text : List Char) : Option Decimal :=
  match text with
  | '-' :: rest => readUnsigned true rest
  | _ => readUnsigned false text

/-! ### Digits -/

def digits (n : Nat) : List Char := Nat.toDigits 10 n

theorem isDigit_of_mem_digits {n : Nat} : ∀ c ∈ digits n, c.isDigit = true := by
  intro c member
  exact Nat.isDigit_of_mem_toDigits (by decide) (by decide) member

theorem digits_ne_nil (n : Nat) : digits n ≠ [] :=
  Nat.toDigits_ne_nil

theorem isDigit_of_mem_zeros {count : Nat} : ∀ c ∈ zeros count, c.isDigit = true := by
  intro c member
  rw [List.eq_of_mem_replicate member]
  decide

theorem toList_toString_natCast (n : Nat) : (toString (n : Int)).toList = digits n := by
  rw [digits, ← Nat.toList_repr]
  rfl

theorem toList_toString_negSucc (n : Nat) :
    (toString (Int.negSucc n)).toList = '-' :: digits (n + 1) := by
  have written : toString (Int.negSucc n) = "-" ++ (n + 1).repr := rfl
  rw [written, String.toList_append, Nat.toList_repr]
  rfl

theorem not_dash_prefix_digits (n : Nat) : ['-'].isPrefixOf (digits n) = false := by
  cases form : digits n with
  | nil => rfl
  | cons first rest =>
    have isDigit : first.isDigit = true :=
      isDigit_of_mem_digits (n := n) first (form ▸ List.mem_cons_self)
    have notDash : first ≠ '-' := by
      rintro rfl
      exact absurd isDigit (by decide)
    simpa [List.isPrefixOf] using notDash.symm

theorem ofDigitChars_digits (n : Nat) : Nat.ofDigitChars 10 (digits n) 0 = n :=
  Nat.ofDigitChars_ten_toDigits

theorem ofDigitChars_digits_zeros (n count : Nat) :
    Nat.ofDigitChars 10 (digits n ++ zeros count) 0 = n * 10 ^ count := by
  rw [Nat.ofDigitChars_append, ofDigitChars_digits, zeros, Nat.ofDigitChars_replicate_zero,
    Nat.mul_comm]

theorem ofDigitChars_zeros_digits (n count : Nat) :
    Nat.ofDigitChars 10 ('0' :: (zeros count ++ digits n)) 0 = n := by
  have leading : '0' :: (zeros count ++ digits n) = zeros (count + 1) ++ digits n := rfl
  rw [leading, Nat.ofDigitChars_append, zeros, Nat.ofDigitChars_replicate_zero, Nat.mul_zero,
    ofDigitChars_digits]

/-! ### Reading what was written -/

theorem readUnsigned_whole (negative : Bool) {whole : List Char}
    (allDigits : ∀ c ∈ whole, c.isDigit = true) :
    readUnsigned negative whole = some ⟨negative, whole, []⟩ := by
  have rest : whole.dropWhile Char.isDigit = [] := List.dropWhile_eq_nil_iff.mpr allDigits
  have taken : whole.takeWhile Char.isDigit = whole := List.takeWhile_eq_self_iff.mpr allDigits
  simp only [readUnsigned, rest, taken]

theorem readUnsigned_point (negative : Bool) {whole fraction : List Char}
    (wholeDigits : ∀ c ∈ whole, c.isDigit = true)
    (fractionDigits : ∀ c ∈ fraction, c.isDigit = true) :
    readUnsigned negative (whole ++ '.' :: fraction) = some ⟨negative, whole, fraction⟩ := by
  have rest : (whole ++ '.' :: fraction).dropWhile Char.isDigit = '.' :: fraction := by
    rw [List.dropWhile_append_of_pos wholeDigits]
    rfl
  have taken : (whole ++ '.' :: fraction).takeWhile Char.isDigit = whole := by
    rw [List.takeWhile_append_of_pos wholeDigits]
    exact List.append_nil whole
  simp only [readUnsigned, rest, taken]
  exact if_pos ⟨trivial, List.all_eq_true.mpr fractionDigits⟩

/-- `out` is read back, with either sign, as the number `n · 10^e`. -/
structure Exact (out : List Char) (n : Nat) (e : Int) (whole fraction : List Char) : Prop where
  read : ∀ negative, readUnsigned negative out = some ⟨negative, whole, fraction⟩
  firstDigit : ∃ first rest, out = first :: rest ∧ first.isDigit = true
  whole_ne_nil : whole ≠ []
  fraction_length : (fraction.length : Int) = max 0 (-e)
  magnitude : (Nat.ofDigitChars 10 (whole ++ fraction) 0 : ℚ) / 10 ^ fraction.length = n * 10 ^ e

theorem toInt_neg_of_min_lt {exp : Int32} (aboveMin : -2 ^ 31 < exp.toInt) :
    (-exp).toInt = -exp.toInt := by
  have below := exp.toInt_lt
  rw [Int32.toInt_neg]
  exact Int.bmod_eq_of_le (by omega) (by omega)

theorem exact_padRight (n : Nat) (count : Nat) :
    Exact (digits n ++ zeros count) n count (digits n ++ zeros count) [] := by
  have allDigits : ∀ c ∈ digits n ++ zeros count, c.isDigit = true := by
    intro c member
    rcases List.mem_append.mp member with isDigit | isZero
    · exact isDigit_of_mem_digits c isDigit
    · exact isDigit_of_mem_zeros c isZero
  obtain ⟨first, rest, form⟩ := List.exists_cons_of_ne_nil (digits_ne_nil n)
  refine ⟨fun negative => readUnsigned_whole negative allDigits,
    ⟨first, rest ++ zeros count, by rw [form]; rfl, ?_⟩, ?_, ?_, ?_⟩
  · exact allDigits first (by rw [form]; exact List.mem_cons_self)
  · rw [form]
    exact List.cons_ne_nil _ _
  · simp
  · rw [List.append_nil, ofDigitChars_digits_zeros]
    simp

theorem exact_padLeft (n k : Nat) (short : (digits n).length ≤ k) :
    Exact ('0' :: '.' :: zeros (k - (digits n).length) ++ digits n) n (-k) ['0']
      (zeros (k - (digits n).length) ++ digits n) := by
  have fractionDigits :
      ∀ c ∈ zeros (k - (digits n).length) ++ digits n, c.isDigit = true := by
    intro c member
    rcases List.mem_append.mp member with isZero | isDigit
    · exact isDigit_of_mem_zeros c isZero
    · exact isDigit_of_mem_digits c isDigit
  have count : (zeros (k - (digits n).length) ++ digits n).length = k := by
    rw [List.length_append, zeros, List.length_replicate]
    omega
  refine ⟨fun negative => ?_, ⟨'0', _, rfl, by decide⟩, List.cons_ne_nil _ _, ?_, ?_⟩
  · exact @readUnsigned_point negative ['0'] _ (by simp) fractionDigits
  · rw [count]
    omega
  · rw [count]
    have value := ofDigitChars_zeros_digits n (k - (digits n).length)
    rw [List.singleton_append, value, zpow_neg, zpow_natCast, div_eq_mul_inv]

theorem exact_split (n k : Nat) (long : k < (digits n).length) :
    Exact ((digits n).take ((digits n).length - k) ++
        '.' :: (digits n).drop ((digits n).length - k)) n (-k)
      ((digits n).take ((digits n).length - k)) ((digits n).drop ((digits n).length - k)) := by
  have wholeDigits :
      ∀ c ∈ (digits n).take ((digits n).length - k), c.isDigit = true :=
    fun c member => isDigit_of_mem_digits c (List.mem_of_mem_take member)
  have fractionDigits :
      ∀ c ∈ (digits n).drop ((digits n).length - k), c.isDigit = true :=
    fun c member => isDigit_of_mem_digits c (List.mem_of_mem_drop member)
  have count : ((digits n).drop ((digits n).length - k)).length = k := by
    rw [List.length_drop]
    omega
  have wholeSome : (digits n).take ((digits n).length - k) ≠ [] := by
    intro isNil
    have noLength := congrArg List.length isNil
    rw [List.length_take, List.length_nil] at noLength
    omega
  obtain ⟨first, rest, form⟩ := List.exists_cons_of_ne_nil wholeSome
  refine ⟨fun negative => readUnsigned_point negative wholeDigits fractionDigits,
    ⟨first, _, by rw [form]; rfl, ?_⟩, wholeSome, ?_, ?_⟩
  · exact wholeDigits first (by rw [form]; exact List.mem_cons_self)
  · rw [count]
    omega
  · rw [count, List.take_append_drop, ofDigitChars_digits, zpow_neg, zpow_natCast,
      div_eq_mul_inv]

theorem placePoint_exact (n : Nat) {exp : Int32} (aboveMin : -2 ^ 31 < exp.toInt) :
    ∃ out whole fraction, placePoint (digits n) exp = some out ∧
      Exact out n exp.toInt whole fraction := by
  by_cases nonneg : 0 ≤ exp
  · have toNat : (exp.toInt.toNat : Int) = exp.toInt :=
      Int.toNat_of_nonneg (Int32.le_iff_toInt_le.mp nonneg)
    have written := exact_padRight n exp.toInt.toNat
    rw [toNat] at written
    exact ⟨_, _, _, by rw [placePoint, if_pos nonneg], written⟩
  · have negative : exp.toInt < 0 := by
      have notLe := mt Int32.le_iff_toInt_le.mpr nonneg
      exact Int.not_le.mp notLe
    obtain ⟨k, isK⟩ : ∃ k : Nat, -exp.toInt = k := Int.eq_ofNat_of_zero_le (by omega)
    have isExp : exp.toInt = -k := by omega
    have negated : (-exp).toInt = k := (toInt_neg_of_min_lt aboveMin).trans isK
    rw [placePoint, if_neg nonneg, negated, isExp]
    by_cases short : (digits n).length ≤ k
    · have distance : ((k : Int) - (digits n).length).toNat = k - (digits n).length := by omega
      rw [if_pos (by exact_mod_cast short), distance]
      exact ⟨_, _, _, rfl, exact_padLeft n k short⟩
    · rw [if_neg (by exact_mod_cast short), if_pos (by omega)]
      exact ⟨_, _, _, rfl, exact_split n k (by omega)⟩

/-! ### Every value -/

theorem readDecimal_of_exact {out : List Char} {n : Nat} {e : Int} {whole fraction : List Char}
    (written : Exact out n e whole fraction) :
    readDecimal out = some ⟨false, whole, fraction⟩ := by
  obtain ⟨first, rest, rfl, isDigit⟩ := written.firstDigit
  have notDash : first ≠ '-' := by
    rintro rfl
    exact absurd isDigit (by decide)
  rw [readDecimal]
  · exact written.read false
  · intro rest' isCons
    exact notDash (List.cons.inj isCons).1

/-- For every integer and every exponent but the smallest `int32`. -/
theorem formatCopyNumeric_exact (int : Int) (exp : Int32) (aboveMin : -2 ^ 31 < exp.toInt) :
    ∃ text decimal, formatCopyNumeric (ofInt int exp) = some text ∧
      readDecimal text.toList = some decimal ∧
      decimal.value = int * 10 ^ exp.toInt ∧
      (decimal.fraction.length : Int) = max 0 (-exp.toInt) ∧
      decimal.whole ≠ [] := by
  cases int with
  | ofNat n =>
    obtain ⟨out, whole, fraction, placed, written⟩ := placePoint_exact n aboveMin
    have isText := toList_toString_natCast n
    refine ⟨String.ofList out, ⟨false, whole, fraction⟩, ?_, ?_, ?_, written.fraction_length,
      written.whole_ne_nil⟩
    · simp only [formatCopyNumeric, ofInt, Int.ofNat_eq_natCast, isText,
        not_dash_prefix_digits, Bool.false_eq_true, if_false, placed]
      rfl
    · rw [String.toList_ofList]
      exact readDecimal_of_exact written
    · simpa [Decimal.value, Decimal.magnitude] using written.magnitude
  | negSucc n =>
    obtain ⟨out, whole, fraction, placed, written⟩ := placePoint_exact (n + 1) aboveMin
    have isText := toList_toString_negSucc n
    refine ⟨String.ofList ('-' :: out), ⟨true, whole, fraction⟩, ?_, ?_, ?_,
      written.fraction_length, written.whole_ne_nil⟩
    · have dashed : ['-'].isPrefixOf ('-' :: digits (n + 1)) = true := rfl
      simp only [formatCopyNumeric, ofInt, isText, dashed, if_true, List.drop_one,
        List.tail_cons, placed]
      rfl
    · rw [String.toList_ofList]
      exact written.read true
    · have magnitude := written.magnitude
      rw [Decimal.value, if_pos rfl, Decimal.magnitude, magnitude, Int.cast_negSucc]
      ring

/-- Zero with three places: the digits are padded on the left. -/
theorem zero_threePlaces_exact :
    formatCopyNumeric (ofInt 0 (-3)) = some "0.000" ∧
      ∃ text decimal, formatCopyNumeric (ofInt 0 (-3)) = some text ∧
        readDecimal text.toList = some decimal ∧
        decimal.value = (0 : Int) * 10 ^ (-3 : Int32).toInt ∧
        (decimal.fraction.length : Int) = max 0 (-(-3 : Int32).toInt) ∧
        decimal.whole ≠ [] :=
  ⟨by decide +kernel, formatCopyNumeric_exact 0 (-3) (by decide)⟩

example : formatCopyNumeric (ofInt (-1205) (-2)) = some "-12.05" := by decide +kernel

end DbBackup.Engine.Postgres.CopyNumeric
