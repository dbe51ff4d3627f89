import DbBackup.Config.Phrase

/-!
Owns what a phrase says to a reader, and what `ParseNL` finds in it
(`supported/config/nl.go`).

A reader takes the days a phrase names in whole words, and every so many days
where it counts them and gives a time. `ParseNL` looks for substrings and keeps
one fact of each kind. Contract: the time it finds is one of the day exactly if
`ClockInDay` (`clockInDay_iff`), and its days are the days of the words exactly if
`DaysInWords` (`nlDays_eq_iff`).
-/

set_option linter.all false

namespace DbBackup.Scheduler

open Config Lib.Backtrack Lib.Delimited Lib.Duration Lib.GoString Lib.Scan

/-! ### What a phrase says -/

/-- The text that `ParseNL` looks at. -/
def spoken (phrase : String) : String := lowerText (trimSpace phrase)

/-- Whole words. -/
def phraseWords (p : String) : List String :=
  (words (fun c => !isWordChar c) p.toList).map String.ofList

def shortName (day : Nat) : String := String.ofList ((dayNames.getD day "").toList.take 3)

/-- The names of a day: short, without its ending, in full, and the plurals. -/
def dayWords (day : Nat) : List String :=
  let name := dayNames.getD day ""
  let stem := trimSuffix name "day"
  [shortName day, stem, stem ++ "s", name, name ++ "s"]

/-- Whether a word names a day, on its own or with its group. -/
def namesDay (word : String) (day : Nat) : Bool :=
  (dayWords day).contains word ||
    (["weekday", "weekdays"].contains word && [1, 2, 3, 4, 5].contains day) ||
    (["weekend", "weekends"].contains word && [0, 6].contains day)

/-- The days that the words of a phrase name. -/
def namedDays (p : String) : List Nat :=
  (List.range 7).filter fun day => (phraseWords p).any fun word => namesDay word day

/-- Somewhere the phrase counts days, and it gives a time. -/
def SaysEvery (p : String) (n : Int) : Prop :=
  1 ≤ n ∧ (nlTime p).isSome = true ∧
    ∃ start tail count rest, p.toList = start ++ tail ∧
      (count, rest) ∈ (countPattern "every" "day").ways tail ∧ n = digitsValue count.toList

/-! ### Times -/

section Times

theorem atoi_of_digits {text : String} (allDigits : ∀ c ∈ text.toList, c.isDigit = true) :
    (atoi text).1 = min (digitsValue text.toList : Int) maxDuration := by
  unfold atoi
  rw [splitSign_digits allDigits]
  have all : text.toList.all Char.isDigit = true := List.all_eq_true.mpr allDigits
  simp only [signedValue, Bool.false_eq_true, ↓reduceIte, all, Bool.true_eq_false, or_false]
  by_cases isEmpty : text.toList = []
  · rw [if_pos isEmpty, isEmpty]
    rfl
  · rw [if_neg isEmpty]
    split
    · omega
    · rw [if_neg (by unfold minDuration; omega)]
      omega

/-- One or two digits. -/
theorem atoi_short {text : String} (allDigits : ∀ c ∈ text.toList, c.isDigit = true)
    (short : text.toList.length ≤ 2) : 0 ≤ (atoi text).1 ∧ (atoi text).1 ≤ 99 := by
  have bound := digitsValue_le allDigits short (Nat.le_refl 2)
  rw [atoi_of_digits allDigits]
  unfold maxDuration
  omega

theorem meridiemHour_range {h : Int} (range : 0 ≤ h ∧ h ≤ 99) (meridiem : String) :
    0 ≤ meridiemHour h meridiem ∧ meridiemHour h meridiem ≤ 99 := by
  unfold meridiemHour
  split
  · omega
  · split <;> omega

variable {p : String}

theorem clock_digits {h m : String} {meridiem : Option String}
    (found : findSubmatch clockPattern p = some (h, m, meridiem)) :
    (0 ≤ (atoi h).1 ∧ (atoi h).1 ≤ 99) ∧ 0 ≤ (atoi m).1 ∧ (atoi m).1 ≤ 99 := by
  obtain ⟨start, tail, rest, -, way⟩ := exists_way_of_search found
  unfold clockPattern at way
  simp only [mem_ways_bind, mem_ways_between, mem_ways_digits, mem_ways_pure, Prod.mk.injEq] at way
  obtain ⟨h', _, ⟨⟨-, hourDigits⟩, -, hourShort⟩, _, _, -, m', _, ⟨-, two, minuteDigits⟩, _, _, -, _,
    _, -, ⟨rfl, rfl, -⟩, -⟩ := way
  exact ⟨atoi_short hourDigits hourShort, atoi_short minuteDigits (by omega)⟩

theorem hour_digits {h meridiem : String} (found : findSubmatch hourPattern p = some (h, meridiem)) :
    0 ≤ (atoi h).1 ∧ (atoi h).1 ≤ 99 := by
  obtain ⟨start, tail, rest, -, way⟩ := exists_way_of_search found
  unfold hourPattern at way
  simp only [mem_ways_bind, mem_ways_between, mem_ways_pure, Prod.mk.injEq] at way
  obtain ⟨h', _, ⟨⟨-, hourDigits⟩, -, hourShort⟩, _, _, -, _, _, -, ⟨rfl, -⟩, -⟩ := way
  exact atoi_short hourDigits hourShort

theorem compactTime_range {v : String} (found : findWordSubmatch compactPattern p = some v) {t : Int}
    (read : compactTime v = some t) : 0 ≤ t ∧ t < 1440 := by
  obtain ⟨start, tail, rest, -, way⟩ := exists_way_of_search found
  unfold compactPattern at way
  simp only [mem_ways_bind, mem_ways_between, mem_ways_pure] at way
  obtain ⟨v', _, ⟨⟨-, digits⟩, -⟩, _, _, -, rfl, -⟩ := way
  unfold compactTime at read
  simp only at read
  split at read
  · rename_i four
    have hourLow := @atoi_short (String.ofList (v.toList.take 2))
      (by simpa using fun c member => digits c (List.mem_of_mem_take member)) (by simp)
    have minuteLow := @atoi_short (String.ofList (v.toList.drop 2))
      (by simpa using fun c member => digits c (List.mem_of_mem_drop member)) (by simp [four.1])
    rw [← Option.some.inj read]
    omega
  · cases read

/-- The time written with digits is one of the day. -/
def ClockInDay (p : String) : Prop :=
  (∀ h m meridiem, findSubmatch clockPattern p = some (h, m, meridiem) →
    meridiemHour (atoi h).1 (meridiem.getD "") * 60 + (atoi m).1 < 1440) ∧
  (findSubmatch clockPattern p = none → ∀ h meridiem, findSubmatch hourPattern p = some (h, meridiem) →
    meridiemHour (atoi h).1 meridiem < 24)

theorem nlTime_of_clock {h m : String} {meridiem : Option String}
    (found : findSubmatch clockPattern p = some (h, m, meridiem)) :
    nlTime p = some (meridiemHour (atoi h).1 (meridiem.getD "") * 60 + (atoi m).1) := by
  unfold nlTime nlClock
  rw [found]
  rfl

theorem nlTime_of_hour (noClock : findSubmatch clockPattern p = none) {h meridiem : String}
    (found : findSubmatch hourPattern p = some (h, meridiem)) :
    nlTime p = some (meridiemHour (atoi h).1 meridiem * 60) := by
  unfold nlTime nlClock
  rw [noClock, found]
  rfl

theorem nlTime_of_neither (noClock : findSubmatch clockPattern p = none)
    (noHour : findSubmatch hourPattern p = none) {t : Int} (given : nlTime p = some t) :
    0 ≤ t ∧ t < 1440 := by
  unfold nlTime nlClock at given
  rw [noClock, noHour] at given
  simp only at given
  cases compact : (findWordSubmatch compactPattern p).bind compactTime with
  | some time =>
    rw [compact] at given
    obtain ⟨v, found, read⟩ := Option.bind_eq_some_iff.mp compact
    rw [← Option.some.inj given]
    exact compactTime_range found read
  | none =>
    have named : t = 720 ∨ t = 0 := by
      rw [compact] at given
      by_cases noon : contains p "noon" = true
      · rw [if_pos noon] at given
        exact .inl (Option.some.inj given).symm
      · rw [if_neg noon] at given
        by_cases midnight : contains p "midnight" = true
        · rw [if_pos midnight] at given
          exact .inr (Option.some.inj given).symm
        · rw [if_neg midnight] at given
          cases given
    omega

theorem nlTime_range {t : Int} (given : nlTime p = some t) : 0 ≤ t ∧ t < 6040 := by
  cases clock : findSubmatch clockPattern p with
  | some reading =>
    obtain ⟨h, m, meridiem⟩ := reading
    obtain ⟨hourRange, minuteRange⟩ := clock_digits clock
    have range := meridiemHour_range hourRange (meridiem.getD "")
    rw [nlTime_of_clock clock] at given
    rw [← Option.some.inj given]
    omega
  | none =>
    cases hour : findSubmatch hourPattern p with
    | some reading =>
      obtain ⟨h, meridiem⟩ := reading
      have range := meridiemHour_range (hour_digits hour) meridiem
      rw [nlTime_of_hour clock hour] at given
      rw [← Option.some.inj given]
      omega
    | none =>
      have range := nlTime_of_neither clock hour given
      omega

theorem clockInDay_iff : ClockInDay p ↔ ∀ t, nlTime p = some t → t < 1440 := by
  constructor
  · rintro ⟨clockIn, hourIn⟩ t given
    cases clock : findSubmatch clockPattern p with
    | some reading =>
      obtain ⟨h, m, meridiem⟩ := reading
      rw [nlTime_of_clock clock] at given
      rw [← Option.some.inj given]
      exact clockIn h m meridiem clock
    | none =>
      cases hour : findSubmatch hourPattern p with
      | some reading =>
        obtain ⟨h, meridiem⟩ := reading
        have inDay := hourIn clock h meridiem hour
        rw [nlTime_of_hour clock hour] at given
        rw [← Option.some.inj given]
        omega
      | none => exact (nlTime_of_neither clock hour given).2
  · intro inDay
    refine ⟨fun h m meridiem clock => inDay _ (nlTime_of_clock clock), fun noClock h meridiem hour => ?_⟩
    have bound := inDay _ (nlTime_of_hour noClock hour)
    omega

end Times

/-! ### Intervals -/

section Intervals

variable {p : String}

/-- Where only every single day is said, the interval is a day, unless the phrase
asks for every hour or every minute too. -/
theorem nlInterval_of_daily (onlyDaily : ∀ n, SaysEvery p n → n = 1) {n : Int} (said : SaysEvery p n) :
    (nlInterval p).getD 0 = 1440 ∨ (nlInterval p).getD 0 = 0 ∨ (nlInterval p).getD 0 = 1 ∨
      ((nlInterval p).getD 0 = 60 ∧ contains p "every hour" = true ∧
        contains p "every day" = false) := by
  obtain ⟨-, timed, start, tail, count, rest, shape, way, -⟩ := said
  have counted : countMinutes (findSubmatch (countPattern "every" "day") p) 1440 = some 0 ∨
      countMinutes (findSubmatch (countPattern "every" "day") p) 1440 = some 1440 := by
    have isFound : (findSubmatch (countPattern "every" "day") p).isSome = true := by
      unfold findSubmatch
      rw [shape]
      exact search_isSome way
    obtain ⟨found, isCount⟩ := Option.isSome_iff_exists.mp isFound
    obtain ⟨start', tail', rest', shape', way'⟩ := exists_way_of_search isCount
    have digits : ∀ c ∈ found.toList, c.isDigit = true := by
      unfold countPattern at way'
      simp only [mem_ways_bind, mem_ways_someDigits, mem_ways_pure] at way'
      obtain ⟨_, _, -, _, _, -, _, _, ⟨-, -, allDigits⟩, _, _, -, _, _, -, rfl, -⟩ := way'
      exact allDigits
    have small : digitsValue found.toList = 0 ∨ digitsValue found.toList = 1 := by
      by_cases zero : digitsValue found.toList = 0
      · exact .inl zero
      · have isOne := onlyDaily (digitsValue found.toList)
          ⟨by omega, timed, start', tail', found, rest', shape', way', rfl⟩
        exact .inr (by omega)
    rw [isCount]
    unfold countMinutes
    rw [Option.map_some, atoi_of_digits digits]
    rcases small with zero | one
    · rw [zero]
      exact .inl (by decide)
    · rw [one]
      exact .inr (by decide)
  unfold nlInterval
  by_cases daily : contains p "every day" = true
  · rw [if_pos daily]
    exact .inl rfl
  · rw [if_neg daily]
    by_cases hourly : contains p "every hour" = true
    · rw [if_pos hourly]
      exact .inr (.inr (.inr ⟨rfl, hourly, by simpa using daily⟩))
    · rw [if_neg hourly]
      by_cases minutely : contains p "every minute" = true
      · rw [if_pos minutely]
        exact .inr (.inr (.inl rfl))
      · rw [if_neg minutely]
        rcases counted with zero | day
        · rw [zero]
          exact .inr (.inl rfl)
        · rw [day]
          exact .inl rfl

theorem nlInterval_of_hourly (hourly : contains p "every hour" = true)
    (notDaily : contains p "every day" = false) : (nlInterval p).getD 0 = 60 := by
  unfold nlInterval
  rw [notDaily, hourly]
  rfl

end Intervals

/-! ### Days -/

section Days

variable {p : String}

/-- The days found in a phrase are the days its words name: a group is not mixed
with other days, and no short name of a day stands in another word only. -/
def DaysInWords (p : String) : Prop :=
  if contains p "weekend" then namedDays p = [0, 6]
  else if contains p "weekday" then namedDays p = [1, 2, 3, 4, 5]
  else ∀ day < 7, contains p (shortName day) = true → day ∈ namedDays p

theorem contains_phraseWord {word : String} (member : word ∈ phraseWords p) :
    contains p word = true := by
  obtain ⟨chars, inWords, rfl⟩ := List.mem_map.mp member
  rw [contains_iff_piece, String.toList_ofList]
  exact infix_of_mem_words inWords

theorem contains_trimSpace (text : String) : contains text (trimSpace text) = true := by
  obtain ⟨before, after, shape, -⟩ := trimSpace_parts text
  refine contains_iff_piece.mpr ⟨before.toList, after.toList, ?_⟩
  rw [← String.toList_append, ← String.toList_append, ← shape]

variable {day : Nat}

/-- Whatever a day is recognised by holds its short name. -/
theorem shortName_of_form (isDay : day < 7) {form : String} (listed : form ∈ dayWords day) :
    contains form (shortName day) = true := by
  have all : (List.range 7).all (fun day => (dayWords day).all fun form =>
      contains form (shortName day)) = true := by
    decide
  exact List.all_eq_true.mp (List.all_eq_true.mp all day (List.mem_range.mpr isDay)) form listed

theorem dayNamed_iff (isDay : day < 7) :
    dayNamed p (dayNames.getD day "") = true ↔ contains p (shortName day) = true := by
  have through {form : String} (listed : form ∈ dayWords day) (inside : contains p form = true) :
      contains p (shortName day) = true :=
    contains_trans inside (shortName_of_form isDay listed)
  unfold dayNamed
  simp only [Bool.or_eq_true, List.any_eq_true, decide_eq_true_eq, List.mem_map]
  constructor
  · rintro (((inName | inPlural) | inShort) | ⟨_, ⟨part, member, rfl⟩, isForm⟩)
    · exact through (by simp [dayWords]) inName
    · exact through (by simp [dayWords]) inPlural
    · exact inShort
    · have inPhrase : contains p (trimSpace part) = true := by
        apply contains_trans _ (contains_trimSpace part)
        obtain ⟨chars, inSplit, rfl⟩ := List.mem_map.mp member
        rw [contains_iff_piece, String.toList_ofList]
        exact infix_of_mem_splitOnP inSplit
      rcases isForm with (isShort | isName) | isStem
      · exact through (by simp [dayWords, shortName, isShort]) inPhrase
      · exact through (by simp [dayWords, isName]) inPhrase
      · exact through (by simp [dayWords, isStem]) inPhrase
  · intro inShort
    exact .inl (.inr inShort)

theorem mem_namedDays :
    day ∈ namedDays p ↔ day < 7 ∧ ∃ word ∈ phraseWords p, namesDay word day = true := by
  unfold namedDays
  rw [List.mem_filter, List.mem_range, List.any_eq_true]

/-- Without a group, a day that is named is recognised. -/
theorem contains_of_named (noWeekend : contains p "weekend" = false)
    (noWeekday : contains p "weekday" = false) (named : day ∈ namedDays p) :
    contains p (shortName day) = true := by
  obtain ⟨isDay, word, member, names⟩ := mem_namedDays.mp named
  have inPhrase := contains_phraseWord member
  have noGroup {group : String} (isGroup : contains group "weekend" = true ∨
      contains group "weekday" = true) : word ≠ group := by
    rintro rfl
    rcases isGroup with weekend | weekday
    · rw [contains_trans inPhrase weekend] at noWeekend
      cases noWeekend
    · rw [contains_trans inPhrase weekday] at noWeekday
      cases noWeekday
  have notGroup : word ∉ ["weekday", "weekdays"] ∧ word ∉ ["weekend", "weekends"] := by
    simp only [List.mem_cons, List.not_mem_nil, or_false, not_or]
    exact ⟨⟨noGroup (by decide), noGroup (by decide)⟩, noGroup (by decide), noGroup (by decide)⟩
  unfold namesDay at names
  simp only [Bool.or_eq_true, Bool.and_eq_true, List.contains_iff_mem, notGroup, false_and,
    or_false] at names
  exact contains_trans inPhrase (shortName_of_form isDay names)

/-- The days of the schedule are the days of the words. -/
theorem nlDays_eq_iff : nlDays p = namedDays p ↔ DaysInWords p := by
  unfold nlDays DaysInWords
  by_cases weekend : contains p "weekend" = true
  · rw [if_pos weekend, if_pos weekend, eq_comm]
  · rw [if_neg weekend, if_neg weekend]
    by_cases weekday : contains p "weekday" = true
    · rw [if_pos weekday, if_pos weekday, eq_comm]
    · rw [if_neg weekday, if_neg weekday]
      constructor
      · intro same day isDay inShort
        rw [← same, List.mem_filter, List.mem_range]
        exact ⟨isDay, (dayNamed_iff isDay).mpr inShort⟩
      · intro each
        apply List.filter_congr
        intro day member
        have isDay := List.mem_range.mp member
        rw [Bool.eq_iff_iff, dayNamed_iff isDay]
        constructor
        · intro inShort
          have named := (List.mem_filter.mp (each day isDay inShort)).2
          exact named
        · intro named
          exact contains_of_named (by simpa using weekend) (by simpa using weekday)
            (List.mem_filter.mpr ⟨member, named⟩)

theorem nlDays_lt (member : day ∈ nlDays p) : day < 7 := by
  unfold nlDays at member
  split at member
  · simp at member
    omega
  · split at member
    · simp at member
      omega
    · exact List.mem_range.mp (List.mem_filter.mp member).1

theorem nlDays_filter (p : String) :
    nlDays p = (List.range 7).filter fun day => (nlDays p).contains day := by
  have isFilter {f : Nat → Bool} : (List.range 7).filter f =
      (List.range 7).filter fun day => ((List.range 7).filter f).contains day := by
    apply List.filter_congr
    intro day member
    rw [Bool.eq_iff_iff, List.contains_iff_mem, List.mem_filter]
    simp [List.mem_range.mp member]
  unfold nlDays
  split
  · decide
  · split
    · decide
    · exact isFilter

/-- The sets of days are the same if the lists are. -/
theorem nlDays_eq_of_mem (same : ∀ day, day ∈ nlDays p ↔ day ∈ namedDays p) :
    nlDays p = namedDays p := by
  rw [nlDays_filter p]
  unfold namedDays
  apply List.filter_congr
  intro day member
  rw [Bool.eq_iff_iff, List.contains_iff_mem, same day]
  unfold namedDays
  rw [List.mem_filter]
  simp [List.mem_range.mp member]

theorem daysInWords_of_nil (noDays : nlDays p = []) : DaysInWords p := by
  unfold nlDays at noDays
  unfold DaysInWords
  split at noDays
  · cases noDays
  · rename_i noWeekend
    split at noDays
    · cases noDays
    · rename_i noWeekday
      rw [if_neg noWeekend, if_neg noWeekday]
      intro day isDay inShort
      have found := List.filter_eq_nil_iff.mp noDays day (List.mem_range.mpr isDay)
      exact absurd ((dayNamed_iff isDay).mpr inShort) found

end Days

end DbBackup.Scheduler
