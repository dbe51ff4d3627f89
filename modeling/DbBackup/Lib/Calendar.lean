import DbBackup.Lib.Time

/-!
Owns the round trip between days and civil dates, and between an instant and
its `20060102-150405` text.

The days of a 400-year era are counted in centuries, four-year groups and
years; the day is the rest. `EraDay` is that count, and both directions of the
calendar are linear in it.
-/

set_option linter.all false

namespace DbBackup.Lib.Time

/-! ### Days of an era -/

def yearOfEra (dayOfEra : Int) : Int :=
  (dayOfEra - dayOfEra / 1460 + dayOfEra / 36524 - dayOfEra / 146096) / 365

/-- A day of an era: full centuries, full four-year groups, full years, days. -/
structure EraDay (dayOfEra century group year dayOfYear : Int) : Prop where
  centuryRange : 0 ≤ century ∧ century ≤ 3
  groupRange : 0 ≤ group ∧ group ≤ 24
  yearRange : 0 ≤ year ∧ year ≤ 3
  dayRange : 0 ≤ dayOfYear ∧ dayOfYear ≤ 365
  leap : dayOfYear = 365 → year = 3 ∧ (group = 24 → century = 3)
  sum : dayOfEra = 36524 * century + 1461 * group + 365 * year + dayOfYear

theorem exists_eraDay {dayOfEra : Int} (low : 0 ≤ dayOfEra) (high : dayOfEra < 146097) :
    ∃ century group year dayOfYear, EraDay dayOfEra century group year dayOfYear := by
  have split : ∃ century inCentury : Int, (0 ≤ century ∧ century ≤ 3) ∧
      dayOfEra = 36524 * century + inCentury ∧ 0 ≤ inCentury ∧ inCentury ≤ 36524 ∧
      (inCentury = 36524 → century = 3) :=
    ⟨min 3 (dayOfEra / 36524), dayOfEra - 36524 * min 3 (dayOfEra / 36524), by omega⟩
  obtain ⟨century, inCentury, centuryRange, sum, inLow, inHigh, last⟩ := split
  have years : ∃ year dayOfYear : Int, (0 ≤ year ∧ year ≤ 3) ∧
      inCentury % 1461 = 365 * year + dayOfYear ∧ 0 ≤ dayOfYear ∧ dayOfYear ≤ 365 ∧
      (dayOfYear = 365 → year = 3) :=
    ⟨min 3 (inCentury % 1461 / 365), inCentury % 1461 - 365 * min 3 (inCentury % 1461 / 365),
      by omega⟩
  obtain ⟨year, dayOfYear, yearRange, inGroup, dayLow, dayHigh, leapYear⟩ := years
  refine ⟨century, inCentury / 1461, year, dayOfYear, centuryRange, by omega, yearRange,
    ⟨dayLow, dayHigh⟩, ?_, by omega⟩
  intro leapDay
  refine ⟨leapYear leapDay, fun lastGroup => last ?_⟩
  have := leapYear leapDay
  omega

variable {dayOfEra century group year dayOfYear : Int}

theorem EraDay.yearOfEra_eq (day : EraDay dayOfEra century group year dayOfYear) :
    yearOfEra dayOfEra = 100 * century + 4 * group + year := by
  obtain ⟨centuryRange, groupRange, yearRange, dayRange, leap, sum⟩ := day
  have cycles : dayOfEra / 1460 = 25 * century + group +
      (24 * century + group + (365 * year + dayOfYear)) / 1460 := by omega
  have centuries : dayOfEra / 36524 - dayOfEra / 146096 = century := by
    by_cases lastDay : dayOfYear = 365 ∧ group = 24
    · obtain ⟨isLast, lastCentury⟩ := leap lastDay.1
      have := lastCentury lastDay.2
      omega
    · have inside : 1461 * group + 365 * year + dayOfYear ≤ 36523 := by omega
      have whole : dayOfEra / 36524 = century := by omega
      omega
  have carry : 0 ≤ (24 * century + group + (365 * year + dayOfYear)) / 1460 ∧
      (24 * century + group + (365 * year + dayOfYear)) / 1460 ≤ 1 := by omega
  have carried : (24 * century + group + (365 * year + dayOfYear)) / 1460 = 1 →
      1096 ≤ 365 * year + dayOfYear := by omega
  unfold yearOfEra
  omega

theorem EraDay.dayOfYear_eq (day : EraDay dayOfEra century group year dayOfYear) :
    dayOfEra - (365 * yearOfEra dayOfEra + yearOfEra dayOfEra / 4 - yearOfEra dayOfEra / 100) =
      dayOfYear := by
  rw [day.yearOfEra_eq]
  obtain ⟨centuryRange, groupRange, yearRange, dayRange, leap, sum⟩ := day
  omega

/-! ### Civil dates -/

/-- A civil date as `civilFromDays` builds it: years start in March, so that the
leap day is the last day of a year, and January and February belong to the
civil year after. -/
structure MarchDate (days y m d : Int) (era century group year dayOfYear monthIndex : Int) : Prop where
  day : EraDay (days + 719468 - era * 146097) century group year dayOfYear
  isMonthIndex : monthIndex = (5 * dayOfYear + 2) / 153
  isDay : d = dayOfYear - (153 * monthIndex + 2) / 5 + 1
  isMonth : monthIndex < 10 ∧ m = monthIndex + 3 ∧
      y = 100 * century + 4 * group + year + era * 400 ∨
    10 ≤ monthIndex ∧ m = monthIndex - 9 ∧
      y = 100 * century + 4 * group + year + era * 400 + 1

variable (days : Int)

theorem civilFromDays_eq :
    ∃ y m d era century group year dayOfYear monthIndex, civilFromDays days = (y, m, d) ∧
      MarchDate days y m d era century group year dayOfYear monthIndex := by
  obtain ⟨century, group, year, dayOfYear, day⟩ :=
    @exists_eraDay (days + 719468 - (days + 719468) / 146097 * 146097) (by omega) (by omega)
  have isYear := day.yearOfEra_eq
  have isDay := day.dayOfYear_eq
  unfold yearOfEra at isYear isDay
  have dayRange := day.dayRange
  refine ⟨_, _, _, (days + 719468) / 146097, century, group, year, dayOfYear, _, rfl, day, rfl,
    ?_, ?_⟩
  · rw [isDay]
  · rw [isDay, isYear]
    by_cases early : (5 * dayOfYear + 2) / 153 < 10
    · refine .inl ⟨early, if_pos early, ?_⟩
      rw [if_pos early, if_neg (by omega)]
      omega
    · refine .inr ⟨by omega, if_neg early, ?_⟩
      rw [if_neg early, if_pos (by omega)]

/-- `daysFromCivil` counts from the year that starts in March. -/
theorem daysFromCivil_march {y m d shifted monthIndex : Int}
    (isShifted : (if m ≤ 2 then y - 1 else y) = shifted)
    (isIndex : (if 2 < m then m - 3 else m + 9) = monthIndex) {era yearInEra : Int}
    (inEra : 0 ≤ yearInEra ∧ yearInEra ≤ 399) (isSum : shifted = yearInEra + era * 400) :
    daysFromCivil y m d = era * 146097 + (yearInEra * 365 + yearInEra / 4 - yearInEra / 100 +
      ((153 * monthIndex + 2) / 5 + d - 1)) - 719468 := by
  have isEra : shifted / 400 = era := by omega
  have isRest : shifted - era * 400 = yearInEra := by omega
  unfold daysFromCivil
  dsimp only
  rw [isShifted, isIndex, isEra, isRest]

theorem daysFromCivil_civilFromDays :
    daysFromCivil (civilFromDays days).1 (civilFromDays days).2.1 (civilFromDays days).2.2 =
      days := by
  obtain ⟨y, m, d, era, century, group, year, dayOfYear, monthIndex, isDate, march⟩ :=
    civilFromDays_eq days
  obtain ⟨⟨centuryRange, groupRange, yearRange, dayRange, -, sum⟩, isIndex, isDay, isMonth⟩ := march
  rw [isDate]
  have isShifted : (if m ≤ 2 then y - 1 else y) = 100 * century + 4 * group + year + era * 400 := by
    split <;> omega
  have isMonthIndex : (if 2 < m then m - 3 else m + 9) = monthIndex := by
    split <;> omega
  have quarters : (100 * century + 4 * group + year) / 4 = 25 * century + group := by omega
  have hundreds : (100 * century + 4 * group + year) / 100 = century := by omega
  show daysFromCivil y m d = days
  rw [daysFromCivil_march isShifted isMonthIndex (by omega) rfl, quarters, hundreds]
  omega

theorem civilFromDays_month :
    1 ≤ (civilFromDays days).2.1 ∧ (civilFromDays days).2.1 ≤ 12 := by
  obtain ⟨y, m, d, era, century, group, year, dayOfYear, monthIndex, isDate, march⟩ :=
    civilFromDays_eq days
  have dayRange := march.day.dayRange
  have isIndex := march.isMonthIndex
  have isMonth := march.isMonth
  rw [isDate]
  dsimp only
  omega

theorem civilFromDays_day :
    1 ≤ (civilFromDays days).2.2 ∧ (civilFromDays days).2.2 ≤ 31 := by
  obtain ⟨y, m, d, era, century, group, year, dayOfYear, monthIndex, isDate, march⟩ :=
    civilFromDays_eq days
  have dayRange := march.day.dayRange
  have isIndex := march.isMonthIndex
  have isDay := march.isDay
  rw [isDate]
  dsimp only
  omega

/-- The day fits its month; the length of the month depends on the year only
for the leap day. -/
theorem civilFromDays_day_le (notNegative : 0 ≤ (civilFromDays days).1) : (civilFromDays days).2.2 ≤
      daysIn (civilFromDays days).1.toNat (civilFromDays days).2.1.toNat := by
  obtain ⟨y, m, d, era, century, group, year, dayOfYear, monthIndex, isDate, march⟩ :=
    civilFromDays_eq days
  obtain ⟨⟨centuryRange, groupRange, yearRange, dayRange, leap, -⟩, isIndex, isDay, isMonth⟩ := march
  rw [isDate] at notNegative ⊢
  dsimp only at notNegative ⊢
  unfold daysIn
  by_cases february : m = 2
  · rw [if_pos (by omega)]
    by_cases leapDay : dayOfYear = 365
    · obtain ⟨isYear, isCentury⟩ := leap leapDay
      have isLeapYear : isLeap y.toNat = true := by
        have sameYear : (y.toNat : Int) = y := Int.toNat_of_nonneg notNegative
        unfold isLeap
        simp only [Bool.and_eq_true, Bool.or_eq_true, decide_eq_true_eq]
        omega
      rw [if_pos isLeapYear]
      omega
    · split <;> omega
  · rw [if_neg (by omega)]
    split <;> omega

/-! ### Digits -/

theorem digitValue_digitChar {n : Nat} (small : n < 10) : digitValue (Nat.digitChar n) = some n := by
  have all : ∀ n < 10, digitValue (Nat.digitChar n) = some n := by decide
  exact all n small

theorem digitChar_isDigit {n : Nat} (small : n < 10) : (Nat.digitChar n).isDigit = true := by
  have all : ∀ n < 10, (Nat.digitChar n).isDigit = true := by decide
  exact all n small

@[simp] theorem length_padDigits (width value : Nat) : (padDigits width value).length = width := by
  induction width generalizing value with
  | zero => rfl
  | succ width ih => simp [padDigits, ih]

theorem padDigits_isDigit (width value : Nat) : ∀ c ∈ padDigits width value, c.isDigit = true := by
  induction width generalizing value with
  | zero => simp [padDigits]
  | succ width ih =>
    intro c member
    rw [padDigits, List.mem_append, List.mem_singleton] at member
    rcases member with inInit | isLast
    · exact ih _ c inInit
    · rw [isLast]
      exact digitChar_isDigit (Nat.mod_lt _ (by omega))

theorem takeDigits_succ (count value : Nat) (text : List Char) : takeDigits (count + 1) value text =
      (takeDigits count value text).bind fun (read, rest) => takeDigits 1 read rest := by
  induction count generalizing value text with
  | zero => rfl
  | succ count ih =>
    cases text with
    | nil => rfl
    | cons head rest =>
      cases read : digitValue head with
      | none => simp [takeDigits, read]
      | some digit =>
        have := ih (10 * value + digit) rest
        simpa [takeDigits, read] using this

theorem takeDigits_padDigits {width value : Nat} (fits : value < 10 ^ width) (acc : Nat)
    (rest : List Char) :
    takeDigits width acc (padDigits width value ++ rest) = some (acc * 10 ^ width + value, rest) := by
  induction width generalizing value rest with
  | zero =>
    have : value = 0 := by simpa using fits
    simp [takeDigits, padDigits, this]
  | succ width ih =>
    have smaller : value / 10 < 10 ^ width := by
      rw [Nat.div_lt_iff_lt_mul (by omega), ← Nat.pow_succ]
      exact fits
    rw [takeDigits_succ, padDigits, List.append_assoc, ih smaller]
    simp only [Option.bind_some, List.singleton_append, takeDigits,
      digitValue_digitChar (Nat.mod_lt value (by omega : 0 < 10)), Option.some.injEq,
      Prod.mk.injEq, and_true]
    rw [Nat.pow_succ]
    have := Nat.div_add_mod value 10
    have product : acc * (10 ^ width * 10) = 10 * (acc * 10 ^ width) := by
      rw [← Nat.mul_assoc, Nat.mul_comm]
    omega

theorem appendInt_eq {value : Int} {width : Nat} (low : 0 ≤ value) (high : value < 10 ^ width) :
    appendInt value width = padDigits width value.toNat := by
  have fits : value.natAbs < 10 ^ width := by
    have sameValue : ((value.natAbs : Nat) : Int) = value := Int.natAbs_of_nonneg low
    have bounded : ((value.natAbs : Nat) : Int) < ((10 ^ width : Nat) : Int) := by
      rw [sameValue]
      exact_mod_cast high
    exact Int.ofNat_lt.mp bounded
  unfold appendInt
  rw [if_pos fits, if_neg (by omega)]
  congr 1
  omega

theorem appendInt_shape (value : Int) {width : Nat} (positive : 0 < width) :
    ∃ digits, appendInt value width = (if value < 0 then ['-'] else []) ++ digits ∧
      (∀ c ∈ digits, c.isDigit = true) ∧ width ≤ digits.length ∧
      (digits.length = width → value.natAbs < 10 ^ width) := by
  unfold appendInt
  dsimp only
  by_cases fits : value.natAbs < 10 ^ width
  · refine ⟨padDigits width value.natAbs, ?_, padDigits_isDigit _ _, by simp, fun _ => fits⟩
    rw [if_pos fits]
    split <;> rfl
  · have longer : width < (Nat.toDigits 10 value.natAbs).length := by
      by_contra short
      exact fits ((Nat.length_toDigits_le_iff (by omega) positive).mp (by omega))
    refine ⟨Nat.toDigits 10 value.natAbs, ?_, ?_, by omega, by omega⟩
    · rw [if_neg fits]
      split <;> rfl
    · intro c member
      exact Nat.isDigit_of_mem_toDigits (by omega) (by omega) member

/-! ### The text of an instant -/

theorem Instant.clock_eq (t : Instant) :
    (0 ≤ t.clockHour ∧ t.clockHour < 24) ∧ (0 ≤ t.clockMinute ∧ t.clockMinute < 60) ∧
      (0 ≤ t.clockSecond ∧ t.clockSecond < 60) ∧
      t.localSeconds = t.localDays * 86400 + t.clockHour * 3600 + t.clockMinute * 60 +
        t.clockSecond := by
  unfold Instant.clockHour Instant.clockMinute Instant.clockSecond Instant.localDays
  omega

/-- The time of day as six digits. -/
def clockDigits (t : Instant) : List Char :=
  padDigits 2 t.clockHour.toNat ++ padDigits 2 t.clockMinute.toNat ++ padDigits 2 t.clockSecond.toNat

/-- The date as eight digits, where the year has four. -/
def dateDigits (t : Instant) : List Char :=
  padDigits 4 t.year.toNat ++ padDigits 2 t.month.toNat ++ padDigits 2 t.dayOfMonth.toNat

/-- The date as `Format` writes it. -/
def dateText (t : Instant) : List Char :=
  appendInt t.year 4 ++ appendInt t.month 2 ++ appendInt t.dayOfMonth 2

theorem formatCompact_toList (t : Instant) :
    (formatCompact t).toList = dateText t ++ '-' :: clockDigits t := by
  obtain ⟨hours, minutes, seconds, _⟩ := t.clock_eq
  unfold formatCompact dateText clockDigits
  rw [appendInt_eq hours.1 (by omega), appendInt_eq minutes.1 (by omega),
    appendInt_eq seconds.1 (by omega)]
  simp

theorem dateText_eq {t : Instant} (low : 0 ≤ t.year) (high : t.year ≤ 9999) :
    dateText t = dateDigits t := by
  have month : 1 ≤ t.month ∧ t.month ≤ 12 := civilFromDays_month t.localDays
  have date : 1 ≤ t.dayOfMonth ∧ t.dayOfMonth ≤ 31 := civilFromDays_day t.localDays
  unfold dateText dateDigits
  rw [appendInt_eq low (by omega), @appendInt_eq t.month 2 (by omega) (by omega),
    @appendInt_eq t.dayOfMonth 2 (by omega) (by omega)]

theorem clockDigits_isDigit (t : Instant) : ∀ c ∈ clockDigits t, c.isDigit = true := by
  intro c member
  unfold clockDigits at member
  rw [List.mem_append, List.mem_append] at member
  rcases member with (inHour | inMinute) | inSecond
  · exact padDigits_isDigit _ _ c inHour
  · exact padDigits_isDigit _ _ c inMinute
  · exact padDigits_isDigit _ _ c inSecond

@[simp] theorem length_clockDigits (t : Instant) : (clockDigits t).length = 6 := by
  simp [clockDigits]

/-- A date is eight digits exactly if its year has four; otherwise it is longer
or has a sign. -/
theorem dateText_shape (t : Instant) :
    ∃ digits, dateText t = (if t.year < 0 then ['-'] else []) ++ digits ∧
      (∀ c ∈ digits, c.isDigit = true) ∧ 8 ≤ digits.length ∧
      (digits.length = 8 → t.year.natAbs ≤ 9999) := by
  have month : 1 ≤ t.month ∧ t.month ≤ 12 := civilFromDays_month t.localDays
  have date : 1 ≤ t.dayOfMonth ∧ t.dayOfMonth ≤ 31 := civilFromDays_day t.localDays
  obtain ⟨digits, shape, all, long, exact8⟩ := appendInt_shape t.year (by omega : 0 < 4)
  refine ⟨digits ++ padDigits 2 t.month.toNat ++ padDigits 2 t.dayOfMonth.toNat, ?_, ?_, ?_, ?_⟩
  · unfold dateText
    rw [shape, @appendInt_eq t.month 2 (by omega) (by omega),
      @appendInt_eq t.dayOfMonth 2 (by omega) (by omega)]
    simp
  · intro c member
    rw [List.mem_append, List.mem_append] at member
    rcases member with (inYear | inMonth) | inDay
    · exact all c inYear
    · exact padDigits_isDigit _ _ c inMonth
    · exact padDigits_isDigit _ _ c inDay
  · simp
    omega
  · intro isEight
    simp only [List.length_append, length_padDigits] at isEight
    have := exact8 (by omega)
    omega

theorem parseCompact_formatCompact {t : Instant} (low : 0 ≤ t.year) (high : t.year ≤ 9999) :
    parseCompact (formatCompact t) = some { nanos := t.localSeconds * second } := by
  obtain ⟨hours, minutes, seconds, clock⟩ := t.clock_eq
  have month : 1 ≤ t.month ∧ t.month ≤ 12 := civilFromDays_month t.localDays
  have date : 1 ≤ t.dayOfMonth ∧ t.dayOfMonth ≤ 31 := civilFromDays_day t.localDays
  have fits : t.dayOfMonth ≤ daysIn t.year.toNat t.month.toNat := civilFromDays_day_le _ low
  have isDay : daysFromCivil t.year t.month t.dayOfMonth = t.localDays :=
    daysFromCivil_civilFromDays _
  have made : makeInstant t.year.toNat t.month.toNat t.dayOfMonth.toNat t.clockHour.toNat
      t.clockMinute.toNat t.clockSecond.toNat 0 0 = some { nanos := t.localSeconds * second } := by
    unfold makeInstant
    rw [if_pos (by omega)]
    simp only [Int.toNat_of_nonneg low, Int.toNat_of_nonneg hours.1, Int.toNat_of_nonneg minutes.1,
      Int.toNat_of_nonneg seconds.1, Int.toNat_of_nonneg (by omega : 0 ≤ t.month),
      Int.toNat_of_nonneg (by omega : 0 ≤ t.dayOfMonth), isDay]
    rw [← clock]
    simp
  unfold parseCompact
  rw [formatCompact_toList, dateText_eq low high]
  unfold dateDigits clockDigits
  simp only [List.append_assoc, takeDigits_padDigits (by omega : t.year.toNat < 10 ^ 4),
    takeDigits_padDigits (by omega : t.month.toNat < 10 ^ 2),
    takeDigits_padDigits (by omega : t.dayOfMonth.toNat < 10 ^ 2), takeChar, takeHour,
    takeDigits_padDigits (by omega : t.clockHour.toNat < 10 ^ 2),
    takeDigits_padDigits (by omega : t.clockMinute.toNat < 10 ^ 2), bind, Option.bind,
    Nat.zero_mul, Nat.zero_add, if_true]
  have lastDigits := takeDigits_padDigits (by omega : t.clockSecond.toNat < 10 ^ 2) 0 []
  rw [List.append_nil] at lastDigits
  simp only [lastDigits, takeFraction, Nat.zero_mul, Nat.zero_add, if_true]
  exact made

end DbBackup.Lib.Time
