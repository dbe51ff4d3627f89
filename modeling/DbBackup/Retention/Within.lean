import DbBackup.Lib.LineScan
import DbBackup.Lib.Scan
import DbBackup.Lib.Time

/-!
Owns the durations of retention settings: `ParseWithin` with the supported
edition's `parseWithinFull`.

Contract: exactly for which texts the result is the duration the text denotes
(`exactDurations_iff`). The count is read into 64 bits and then multiplied by
its unit without a look at the product.

Error messages are left out; an error says which check failed.
-/

set_option linter.all false

namespace DbBackup.Retention

open Lib.Duration Lib.GoString Lib.LineScan Lib.Scan Lib.Time

inductive DurationError where
  | invalid
  | license
deriving DecidableEq

/-- Which `SupporterParseWithin` is installed, and what the license says. -/
structure WithinEnv where
  supported : Bool
  allowRetention : Bool

/-- `time.Duration(n) * mult` after `strconv.Atoi`, as all three parsers end. -/
def timesUnit (number : String) (mult : Int) : Except DurationError Int :=
  match atoi? number with
  | some n => if n ≤ 0 then .error .invalid else .ok (wrap64 (n * mult))
  | none => .error .invalid

def parseWithinFull (allowRetention : Bool) (s : String) : Except DurationError Int :=
  if !allowRetention then .error .license
  else if hasSuffix s "s" then timesUnit (trimSpace (trimSuffix s "s")) second
  else if hasSuffix s "m" then timesUnit (trimSpace (trimSuffix s "m")) minute
  else if hasSuffix s "h" then timesUnit (trimSpace (trimSuffix s "h")) hour
  else if hasSuffix s "d" then timesUnit (trimSpace (trimSuffix s "d")) day
  else timesUnit (trimSpace s) hour

def supporterParseWithin (env : WithinEnv) (s : String) : Except DurationError Int :=
  if env.supported then parseWithinFull env.allowRetention s else .error .license

def parseWithin (env : WithinEnv) (s : String) : Except DurationError Int :=
  let trimmed := trimSpace s
  if trimmed = "" then .ok 0
  else if hasSuffix trimmed "m" then timesUnit (trimSpace (trimSuffix trimmed "m")) minute
  else supporterParseWithin env trimmed

/-! ### What a text denotes -/

/-- A decimal number of any size, with or without a sign. -/
def number? (text : String) : Option Int :=
  let (negative, digits) := splitSign text.toList
  if digits = [] ∨ digits.all Char.isDigit = false then none
  else some (signedValue negative digits)

def unitOf : Char → Option Int
  | 's' => some second
  | 'm' => some minute
  | 'h' => some hour
  | 'd' => some day
  | _ => none

/-- The count and the unit in nanoseconds; without a unit letter the text
counts hours. -/
def denotes (s : String) : Option (Int × Int) :=
  match (trimSpace s).toList.reverse with
  | [] => none
  | c :: rest =>
    match unitOf c with
    | some unit => (number? (trimSpace (String.ofList rest.reverse))).map (·, unit)
    | none => (number? (trimSpace s)).map (·, hour)

/-- A positive count of a unit is read as that duration, or refused; it is
refused if the duration does not fit. -/
def ExactDuration (parse : String → Except DurationError Int) (s : String) : Prop :=
  ∀ n unit, denotes s = some (n, unit) → 0 < n →
    (∀ d, parse s = .ok d → d = n * unit ∧ 0 < d) ∧
      (maxDuration < n * unit → ∃ error, parse s = .error error)

/-- Anything but minutes needs the supported edition and its license. -/
def Allowed (env : WithinEnv) (s : String) : Prop :=
  hasSuffix (trimSpace s) "m" = true ∨ env.supported = true ∧ env.allowRetention = true

/-- The duration fits if its count does. -/
def Fits (s : String) : Prop :=
  ∀ n unit, denotes s = some (n, unit) → 0 < n → n ≤ maxDuration → n * unit ≤ maxDuration

/-! ### Numbers -/

variable {text : String}

theorem atoi?_eq_some_iff {n : Int} :
    atoi? text = some n ↔ number? text = some n ∧ minDuration ≤ n ∧ n ≤ maxDuration := by
  unfold atoi? atoi number?
  cases splitSign text.toList with
  | mk negative digits =>
    simp only
    split
    · simp
    · split
      · rename_i tooLarge
        simp only [Bool.false_eq_true, if_false, reduceCtorEq, Option.some.injEq, false_iff]
        rintro ⟨rfl, -, bounded⟩
        omega
      · split
        · rename_i tooSmall
          simp only [Bool.false_eq_true, if_false, reduceCtorEq, Option.some.injEq, false_iff]
          rintro ⟨rfl, bounded, -⟩
          omega
        · simp only [if_true, Option.some.injEq]
          constructor
          · rintro rfl
            exact ⟨rfl, by omega, by omega⟩
          · exact fun both => both.1

theorem timesUnit_eq_ok_iff {number : String} {mult d : Int} : timesUnit number mult = .ok d ↔
      ∃ n, number? number = some n ∧ 0 < n ∧ n ≤ maxDuration ∧ d = wrap64 (n * mult) := by
  unfold timesUnit
  cases read : atoi? number with
  | none =>
    simp only [reduceCtorEq, false_iff]
    rintro ⟨n, isNumber, positive, bounded, -⟩
    have inRange : minDuration ≤ n := by
      unfold minDuration
      omega
    rw [atoi?_eq_some_iff.mpr ⟨isNumber, inRange, bounded⟩] at read
    cases read
  | some n =>
    obtain ⟨isNumber, -, bounded⟩ := atoi?_eq_some_iff.mp read
    simp only
    constructor
    · intro result
      split at result
      · cases result
      · exact ⟨n, isNumber, by omega, bounded, (Except.ok.inj result).symm⟩
    · rintro ⟨m, isOther, positive, -, rfl⟩
      rw [isNumber] at isOther
      rw [Option.some.inj isOther, if_neg (by omega)]

/-! ### The last letter -/

theorem hasSuffix_letter (start : List Char) (c d : Char) :
    hasSuffix (String.ofList (start ++ [c])) (String.ofList [d]) = decide (d = c) := by
  unfold hasSuffix
  rw [Bool.eq_iff_iff, List.isSuffixOf_iff_suffix, decide_eq_true_iff]
  simp only [String.toList_ofList]
  constructor
  · rintro ⟨front, same⟩
    have lasts := congrArg List.getLast? same
    simpa using lasts
  · rintro rfl
    exact ⟨start, rfl⟩

theorem trimSuffix_letter (start : List Char) (c : Char) :
    trimSuffix (String.ofList (start ++ [c])) (String.ofList [c]) = String.ofList start := by
  have shape : String.ofList (start ++ [c]) = String.ofList start ++ String.ofList [c] := by
    apply String.toList_injective
    simp
  rw [shape, trimSuffix_append]

theorem unitOf_eq_none {c : Char} (noUnit : unitOf c = none) :
    's' ≠ c ∧ 'm' ≠ c ∧ 'h' ≠ c ∧ 'd' ≠ c := by
  refine ⟨?_, ?_, ?_, ?_⟩ <;> rintro rfl <;> cases noUnit

theorem unit_letters {start : List Char} {c : Char} (isText : text = String.ofList (start ++ [c])) :
    hasSuffix text "s" = decide ('s' = c) ∧ hasSuffix text "m" = decide ('m' = c) ∧
      hasSuffix text "h" = decide ('h' = c) ∧ hasSuffix text "d" = decide ('d' = c) ∧
      trimSuffix text (String.ofList [c]) = String.ofList start := by
  rw [isText, trimSuffix_letter]
  exact ⟨hasSuffix_letter start c 's', hasSuffix_letter start c 'm', hasSuffix_letter start c 'h',
    hasSuffix_letter start c 'd', rfl⟩

theorem denotes_cases {s : String} {n unit : Int} (isDenoted : denotes s = some (n, unit)) :
    ∃ start c, trimSpace s = String.ofList (start ++ [c]) ∧
      ((unitOf c = some unit ∧ number? (trimSpace (String.ofList start)) = some n) ∨
        (unitOf c = none ∧ unit = hour ∧ number? (trimSpace s) = some n)) := by
  unfold denotes at isDenoted
  split at isDenoted
  · cases isDenoted
  · rename_i c rest reversed
    refine ⟨rest.reverse, c, ?_, ?_⟩
    · apply String.toList_injective
      have forward := congrArg List.reverse reversed
      simpa using forward
    · split at isDenoted
      · rename_i known isUnit
        obtain ⟨m, isNumber, same⟩ := Option.map_eq_some_iff.mp isDenoted
        obtain ⟨rfl, rfl⟩ := Prod.mk.inj same
        exact .inl ⟨isUnit, isNumber⟩
      · rename_i noUnit
        obtain ⟨m, isNumber, same⟩ := Option.map_eq_some_iff.mp isDenoted
        obtain ⟨rfl, rfl⟩ := Prod.mk.inj same
        exact .inr ⟨noUnit, rfl, isNumber⟩

theorem denotes_unit_pos {s : String} {n unit : Int} (isDenoted : denotes s = some (n, unit)) :
    0 < unit := by
  obtain ⟨start, c, -, ⟨isUnit, -⟩ | ⟨-, rfl, -⟩⟩ := denotes_cases isDenoted
  · unfold unitOf at isUnit
    split at isUnit
    · cases isUnit
      decide
    · cases isUnit
      decide
    · cases isUnit
      decide
    · cases isUnit
      decide
    · cases isUnit
  · decide

theorem timesUnit_of_number {number : String} {n mult d : Int} (isNumber : number? number = some n)
    (positive : 0 < n) :
    timesUnit number mult = .ok d ↔ n ≤ maxDuration ∧ d = wrap64 (n * mult) := by
  rw [timesUnit_eq_ok_iff]
  constructor
  · rintro ⟨m, isOther, -, bounded, isValue⟩
    rw [isNumber] at isOther
    rw [Option.some.inj isOther]
    exact ⟨bounded, isValue⟩
  · rintro ⟨bounded, isValue⟩
    exact ⟨n, isNumber, positive, bounded, isValue⟩

theorem supporterParseWithin_eq_ok_iff {env : WithinEnv} {s : String} {d : Int} :
    supporterParseWithin env s = .ok d ↔
      (env.supported = true ∧ env.allowRetention = true) ∧ parseWithinFull true s = .ok d := by
  unfold supporterParseWithin
  by_cases supported : env.supported = true
  · by_cases licensed : env.allowRetention = true
    · simp [supported, licensed]
    · simp [supported, licensed, parseWithinFull]
  · simp [supported]

theorem parseWithin_eq_ok_iff {env : WithinEnv} {s : String} {n unit d : Int}
    (isDenoted : denotes s = some (n, unit)) (positive : 0 < n) :
    parseWithin env s = .ok d ↔
      Allowed env s ∧ n ≤ maxDuration ∧ d = wrap64 (n * unit) := by
  obtain ⟨start, c, isTrimmed, why⟩ := denotes_cases isDenoted
  have something : trimSpace s ≠ "" := by
    rw [isTrimmed]
    intro empty
    have chars := congrArg String.toList empty
    simp at chars
  have twice : trimSpace (trimSpace s) = trimSpace s := trimSpace_of_firm (firm_trimSpace something)
  obtain ⟨seconds, minutes, hours, days, cut⟩ := unit_letters isTrimmed
  unfold parseWithin Allowed
  simp only [if_neg something, minutes]
  rcases why with ⟨isUnit, isNumber⟩ | ⟨noUnit, rfl, isNumber⟩
  · have read : ∀ mult, timesUnit (trimSpace (trimSuffix (trimSpace s) (String.ofList [c]))) mult = .ok d ↔
        n ≤ maxDuration ∧ d = wrap64 (n * mult) := by
      intro mult
      rw [cut]
      exact timesUnit_of_number isNumber positive
    unfold unitOf at isUnit
    split at isUnit
    · cases isUnit
      rw [if_neg (by decide), supporterParseWithin_eq_ok_iff]
      simpa [parseWithinFull, seconds] using fun _ _ => read second
    · cases isUnit
      simpa using read minute
    · cases isUnit
      rw [if_neg (by decide), supporterParseWithin_eq_ok_iff]
      simpa [parseWithinFull, seconds, minutes, hours] using fun _ _ => read hour
    · cases isUnit
      rw [if_neg (by decide), supporterParseWithin_eq_ok_iff]
      simpa [parseWithinFull, seconds, minutes, hours, days] using fun _ _ => read day
    · cases isUnit
  · have read := @timesUnit_of_number _ _ hour d isNumber positive
    have others := unitOf_eq_none noUnit
    rw [if_neg (by simpa using others.2.1), supporterParseWithin_eq_ok_iff]
    simpa [parseWithinFull, seconds, minutes, hours, days, others, twice] using fun _ _ => read

/-- A parser that multiplies what the text denotes is exact where that fits. -/
theorem exactDuration_of_fits {parse : String → Except DurationError Int} {s : String}
    (reads : ∀ {n unit d}, denotes s = some (n, unit) → 0 < n → parse s = .ok d →
      n ≤ maxDuration ∧ d = wrap64 (n * unit))
    (fits : (∃ d, parse s = .ok d) → Fits s) : ExactDuration parse s := by
  intro n unit isDenoted positive
  have product : 0 < n * unit := Int.mul_pos positive (denotes_unit_pos isDenoted)
  refine ⟨fun d accepted => ?_, fun tooLarge => ?_⟩
  · obtain ⟨bounded, rfl⟩ := reads isDenoted positive accepted
    have small := fits ⟨_, accepted⟩ n unit isDenoted positive bounded
    have low : minDuration ≤ n * unit := by
      unfold minDuration
      omega
    rw [wrap64_eq_self low small]
    exact ⟨rfl, product⟩
  · cases result : parse s with
    | error error => exact ⟨error, rfl⟩
    | ok d =>
      have bounded := (reads isDenoted positive result).1
      have small := fits ⟨d, result⟩ n unit isDenoted positive bounded
      omega

/-- For every text, `ParseWithin` returns the duration the text denotes, or an
error if there is none in 64 bits, exactly if the text is refused for its unit
or the product of count and unit fits whenever the count does. -/
theorem exactDurations_iff (env : WithinEnv) (s : String) :
    ExactDuration (parseWithin env) s ↔ (Allowed env s → Fits s) := by
  constructor
  · intro exact' allowed n unit isDenoted positive bounded
    by_contra tooLarge
    obtain ⟨error, isError⟩ := (exact' n unit isDenoted positive).2 (by omega)
    have accepted := (@parseWithin_eq_ok_iff env s n unit _ isDenoted positive).mpr
      ⟨allowed, bounded, rfl⟩
    rw [isError] at accepted
    cases accepted
  · intro fits
    refine exactDuration_of_fits ?_ ?_
    · intro n unit d isDenoted positive accepted
      exact ((parseWithin_eq_ok_iff isDenoted positive).mp accepted).2
    · rintro ⟨d, accepted⟩ n unit isDenoted positive
      exact fits ((parseWithin_eq_ok_iff isDenoted positive).mp accepted).1 n unit isDenoted positive

/-- A retention of more than 292 years comes out negative. -/
theorem minutes_overflow :
    parseWithin ⟨false, false⟩ "153722868m" = .ok (-9223371993709551616) ∧
      ¬ ExactDuration (parseWithin ⟨false, false⟩) "153722868m" := by
  have wrapped : parseWithin ⟨false, false⟩ "153722868m" = .ok (-9223371993709551616) := by
    decide +kernel
  refine ⟨wrapped, fun exact' => ?_⟩
  have value := (exact' 153722868 minute (by decide +kernel) (by decide)).1 _ wrapped
  exact absurd value.2 (by decide)

end DbBackup.Retention
