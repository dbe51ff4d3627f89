import DbBackup.Scheduler.CronText
import DbBackup.Scheduler.PhraseFacts

/-!
Owns what schedules in natural language mean: the schedule that the facts of a
phrase are turned into (`supported/config/nl.go`), against what the phrase says.

Contract: the schedule means what the phrase says exactly if the phrase is clear
(`meansWhatItSays_iff`).
-/

set_option linter.all false

namespace DbBackup.Scheduler

open Config Lib.Backtrack Lib.Duration Lib.GoString Lib.Scan

/-! ### What the schedule does -/

/-- The cron expression of a schedule: its own or the one of its recurrence. -/
def cronExpression (s : Schedule) : Option String :=
  if s.cron ≠ "" then some s.cron
  else if hasChar '*' s.recurring then some s.recurring
  else none

/-- The weekdays an expression lists; a star lists none. -/
def cronWeekdays (expr : String) : Set Int :=
  {v | ∃ minutes hours days months weekdays, fields expr = [minutes, hours, days, months, weekdays] ∧
    weekdays ≠ "*" ∧ v ∈ fieldSet weekdays 0 6}

/-- The weekdays a phrase names. -/
def saidWeekdays (p : String) : Set Int := {v : Int | ∃ day ∈ namedDays p, v = (day : Nat)}

/-- The texts of the schedule are accepted, its firings are as many days apart as
the phrase counts, and its weekdays are the ones the phrase names. -/
structure MeansWhatItSays (p : String) (s : Schedule) : Prop where
  cron : s.cron ≠ "" → validateCron s.cron = .ok ()
  recurring : s.recurring ≠ "" → ∀ edition, ∃ read, parseString edition s.recurring = .ok read
  intervals : ∀ n, SaysEvery p n → ∃ expr, cronExpression s = some expr ∧ DaysApart expr n
  weekdays : ∀ expr, cronExpression s = some expr → cronWeekdays expr = saidWeekdays p

/-! ### The schedule of a phrase -/

/-- The hours of the expression: more than one only where an interval of whole
hours stands with a time alone. -/
def spokenHours (facts : NlResult) : List Int :=
  if facts.time.isSome ∧ ¬ 0 < facts.beginMin ∧ facts.days = [] ∧ 0 < facts.intervalMin ∧
      facts.intervalMin.tmod 60 = 0 then
    hoursFrom ((facts.time.getD 0).tdiv 60) (facts.intervalMin.tdiv 60)
  else [(facts.time.getD 0).tdiv 60]

/-- The expression a phrase is turned into. -/
def spokenCron (facts : NlResult) : String :=
  written ((facts.time.getD 0).tmod 60) (spokenHours facts) (facts.days.map fun (day : Nat) => (day : Int))

section Hours

variable {hh stepH : Int} (positive : 0 < stepH)

theorem hoursFrom_eq : hoursFrom hh stepH =
    (hh :: (hh + stepH) :: (List.range 22).map fun (k : Nat) => hh + (k + 2 : Nat) * stepH).takeWhile
      (· < 24) := by
  have range : List.range 24 = 0 :: 1 :: (List.range 22).map (· + 2) := by decide
  unfold hoursFrom
  rw [range, List.map_cons, List.map_cons, List.map_map]
  congr 2
  · simp
  · congr 1
    simp

theorem hoursFrom_eq_nil (late : 24 ≤ hh) : hoursFrom hh stepH = [] := by
  rw [hoursFrom_eq, List.takeWhile_cons_of_neg (by simpa using late)]

theorem hoursFrom_eq_single (inDay : hh < 24) (once : 24 ≤ hh + stepH) : hoursFrom hh stepH = [hh] := by
  rw [hoursFrom_eq, List.takeWhile_cons_of_pos (by simpa using inDay),
    List.takeWhile_cons_of_neg (by simpa using once)]

theorem mem_hoursFrom_twice (inDay : hh < 24) (twice : hh + stepH < 24) :
    hh ∈ hoursFrom hh stepH ∧ hh + stepH ∈ hoursFrom hh stepH := by
  rw [hoursFrom_eq, List.takeWhile_cons_of_pos (by simpa using inDay),
    List.takeWhile_cons_of_pos (by simpa using twice)]
  simp

include positive in
theorem mem_hoursFrom {h : Int} (low : 0 ≤ hh) (member : h ∈ hoursFrom hh stepH) : 0 ≤ h ∧ h < 24 := by
  unfold hoursFrom at member
  have inDay := List.mem_takeWhile_imp member
  obtain ⟨k, -, rfl⟩ := List.mem_map.mp ((List.takeWhile_sublist _).subset member)
  have product : 0 ≤ (k : Int) * stepH := Int.mul_nonneg (by omega) (by omega)
  exact ⟨by omega, by simpa using inDay⟩

end Hours

/-- The facts of a phrase are small enough. -/
structure WellRead (facts : NlResult) : Prop where
  time : ∀ t, facts.time = some t → 0 ≤ t ∧ t < 6040
  interval : facts.intervalMin ≤ maxDuration
  days : ∀ day ∈ facts.days, day < 7

theorem nlInterval_le {p : String} {n : Int} (given : nlInterval p = some n) : n ≤ maxDuration := by
  have wrapped {found : Option String} {unit m : Int} (counted : countMinutes found unit = some m) :
      m ≤ maxDuration := by
    obtain ⟨count, -, rfl⟩ := Option.map_eq_some_iff.mp counted
    unfold wrap64 maxDuration
    omega
  have literal {said : Bool} {m : Int} (given : (if said = true then some m else none) = some n)
      (small : m ≤ maxDuration) : n ≤ maxDuration := by
    split at given
    · rwa [← Option.some.inj given]
    · cases given
  have either {first second : Option Int} (given : (first <|> second) = some n) :
      first = some n ∨ second = some n := by
    cases first with
    | none => exact .inr given
    | some m => exact .inl given
  unfold nlInterval at given
  rcases either given with daily | given
  · exact literal daily (by decide)
  rcases either given with hourly | given
  · exact literal hourly (by decide)
  rcases either given with minutely | given
  · exact literal minutely (by decide)
  rcases either given with days | given
  · exact wrapped days
  rcases either given with hours | minutes
  · exact wrapped hours
  · exact wrapped minutes

theorem wellRead {p : String} {facts : NlResult} (read : nlFacts p = some facts) :
    facts.beginMin = (nlBegin p).getD 0 ∧ facts.intervalMin = (nlInterval p).getD 0 ∧
      facts.time = nlTime p ∧ facts.days = nlDays p ∧ WellRead facts := by
  unfold nlFacts at read
  simp only at read
  split at read
  · rw [← Option.some.inj read]
    refine ⟨rfl, rfl, rfl, rfl, fun t given => nlTime_range given, ?_, fun day member => nlDays_lt member⟩
    show (nlInterval p).getD 0 ≤ maxDuration
    cases given : nlInterval p with
    | none => decide
    | some n => exact nlInterval_le given
  · cases read

section Schedule

theorem dailyCron_eq (hh mm : Int) : dailyCron hh mm = written mm [hh] [] := by
  apply String.toList_injective
  simp [dailyCron, written, numberList, weekdayField]

theorem steppedCron_eq (hh mm stepH : Int) :
    steppedCron hh mm stepH = written mm (hoursFrom hh stepH) [] := by
  apply String.toList_injective
  simp [steppedCron, written, numberList, weekdayField]

theorem buildCron_eq (hh mm : Int) {days : List Nat} (some : days ≠ []) :
    buildCron hh mm days = written mm [hh] (days.map fun (day : Nat) => (day : Int)) := by
  have texts : (days.map fun (day : Nat) => (day : Int)).map toString = days.map toString := by
    rw [List.map_map]
    rfl
  unfold buildCron written weekdayField
  rw [if_neg (by simpa using some)]
  unfold numberList
  rw [texts]
  rfl

variable {facts : NlResult} {s : Schedule}

/-- What a schedule holds: an expression, as its own or as its recurrence, an
interval as its recurrence, or neither. -/
theorem nlSchedule_cases (built : nlSchedule facts = some s) :
    ((facts.time.isSome = true ∨ ¬ 0 < facts.intervalMin) ∧
      (s.cron = spokenCron facts ∧ s.recurring = "" ∨
        s.cron = "" ∧ s.recurring = spokenCron facts ∧ 0 < facts.beginMin)) ∨
    (facts.time = none ∧ 0 < facts.intervalMin ∧ 0 < facts.beginMin ∧ s.cron = "" ∧
      s.recurring = toString facts.intervalMin) ∨
    (facts.time = none ∧ (0 < facts.intervalMin ∨ facts.days = []) ∧ ¬ (0 < facts.intervalMin ∧ 0 < facts.beginMin) ∧ s.cron = "" ∧
      s.recurring = "") := by
  unfold nlSchedule at built
  by_cases starts : 0 < facts.beginMin
  · have oneHour : spokenHours facts = [(facts.time.getD 0).tdiv 60] := by
      unfold spokenHours
      rw [if_neg (by simp [starts])]
    by_cases more : facts.time.isSome ∨ facts.days ≠ [] ∨ 0 < facts.intervalMin
    · rw [if_pos ⟨starts, more⟩] at built
      rw [← Option.some.inj built]
      unfold startSchedule
      cases time : facts.time with
      | some t =>
        left
        refine ⟨.inl rfl, .inr ⟨rfl, ?_, starts⟩⟩
        unfold spokenCron
        rw [oneHour, time]
        by_cases some : facts.days = []
        · simp only [some, ne_eq, not_true_eq_false, ↓reduceIte, List.map_nil]
          exact dailyCron_eq _ _
        · simp only [ne_eq, some, not_false_eq_true, ↓reduceIte]
          exact buildCron_eq _ _ some
      | none =>
        dsimp only
        by_cases interval : 0 < facts.intervalMin
        · right
          left
          rw [if_pos interval]
          exact ⟨rfl, interval, starts, rfl, rfl⟩
        · left
          have some : facts.days ≠ [] := by simpa [time, interval] using more
          rw [if_neg interval]
          refine ⟨.inr interval, .inr ⟨rfl, ?_, starts⟩⟩
          unfold spokenCron
          rw [oneHour, time]
          exact buildCron_eq _ _ some
    · rw [if_neg (fun both => more both.2), if_pos starts] at built
      rw [← Option.some.inj built]
      rw [not_or, not_or, not_not] at more
      right
      right
      exact ⟨by simpa using more.1, .inr more.2.1, fun both => more.2.2 both.1, rfl, rfl⟩
  · rw [if_neg (fun both => starts both.1), if_neg starts] at built
    cases time : facts.time with
    | some t =>
      rw [time] at built
      rw [← Option.some.inj built]
      left
      refine ⟨.inl rfl, .inl ⟨?_, rfl⟩⟩
      unfold timeSchedule spokenCron spokenHours
      simp only [time, Option.isSome_some, Option.getD_some, starts, not_false_eq_true, true_and]
      by_cases some : facts.days = []
      · simp only [some, ne_eq, not_true_eq_false, ↓reduceIte, true_and, List.map_nil]
        split
        · exact steppedCron_eq _ _ _
        · exact dailyCron_eq _ _
      · simp only [ne_eq, some, not_false_eq_true, ↓reduceIte, false_and]
        exact buildCron_eq _ _ some
    | none =>
      have oneHour : spokenHours facts = [0] := by
        unfold spokenHours
        rw [if_neg (by simp [time]), time]
        rfl
      rw [time] at built
      simp only at built
      split at built
      · rename_i interval
        rw [← Option.some.inj built]
        right
        right
        exact ⟨rfl, .inl interval, fun both => starts both.2, rfl, rfl⟩
      · rename_i noInterval
        split at built
        · rename_i some
          rw [← Option.some.inj built]
          left
          refine ⟨.inr noInterval, .inl ⟨?_, rfl⟩⟩
          unfold spokenCron
          rw [oneHour, time]
          exact buildCron_eq _ _ some
        · rename_i noDay
          rw [ne_eq, not_not] at noDay
          split at built
          · rw [← Option.some.inj built]
            left
            refine ⟨.inr noInterval, .inl ⟨?_, rfl⟩⟩
            unfold spokenCron
            rw [oneHour, time, noDay]
            rfl
          · cases built

variable (wellRead : WellRead facts)

include wellRead

theorem WellRead.clock : (0 ≤ facts.time.getD 0 ∧ facts.time.getD 0 < 6040) ∧
    (facts.time.getD 0).tdiv 60 = facts.time.getD 0 / 60 ∧
    (facts.time.getD 0).tmod 60 = facts.time.getD 0 % 60 := by
  have range : 0 ≤ facts.time.getD 0 ∧ facts.time.getD 0 < 6040 := by
    cases time : facts.time with
    | none => decide
    | some t => exact wellRead.time t time
  exact ⟨range, Int.tdiv_eq_ediv_of_nonneg range.1, Int.tmod_eq_emod_of_nonneg range.1⟩

omit wellRead in
/-- Whole hours. -/
theorem stepHours {interval : Int} (positive : 0 < interval) (whole : interval.tmod 60 = 0) :
    0 < interval.tdiv 60 ∧ interval = 60 * interval.tdiv 60 := by
  rw [Int.tmod_eq_emod_of_nonneg (by omega)] at whole
  rw [Int.tdiv_eq_ediv_of_nonneg (by omega)]
  omega

theorem writable_spoken :
    Writable ((facts.time.getD 0).tmod 60) (spokenHours facts)
      (facts.days.map fun (day : Nat) => (day : Int)) := by
  obtain ⟨range, hours, minutes⟩ := wellRead.clock
  refine ⟨by omega, ?_, ?_⟩
  · unfold spokenHours
    split
    · rename_i stepped
      intro h member
      have inDay := mem_hoursFrom (stepHours stepped.2.2.2.1 stepped.2.2.2.2).1 (by omega) member
      exact readable_of_le ⟨inDay.1, Int.le_of_lt inDay.2⟩ (by decide)
    · simp only [List.mem_singleton, forall_eq]
      unfold Readable maxDuration
      omega
  · intro d member
    obtain ⟨day, inDays, rfl⟩ := List.mem_map.mp member
    have small := wellRead.days day inDays
    omega

/-- The expression is accepted if the time is one of the day. -/
theorem validateCron_spoken :
    validateCron (spokenCron facts) = .ok () ↔ ∀ t, facts.time = some t → t < 1440 := by
  have valid : (∀ t, facts.time = some t → t < 1440) ↔ facts.time.getD 0 < 1440 := by
    cases facts.time with
    | none => simp
    | some t => simp
  obtain ⟨range, hours, minutes⟩ := wellRead.clock
  unfold spokenCron
  rw [validateCron_written (writable_spoken wellRead), valid]
  unfold spokenHours
  split
  · rename_i stepped
    constructor
    · rintro ⟨some, -⟩
      by_contra late
      exact some (hoursFrom_eq_nil (by omega))
    · intro early
      refine ⟨?_, fun h member => ?_⟩
      · rw [hoursFrom_eq, List.takeWhile_cons_of_pos (by simp; omega)]
        exact List.cons_ne_nil _ _
      · have inDay := mem_hoursFrom (stepHours stepped.2.2.2.1 stepped.2.2.2.2).1 (by omega) member
        omega
  · simp only [ne_eq, List.cons_ne_self, not_false_eq_true, List.mem_singleton, forall_eq, true_and]
    omega

theorem cronWeekdays_spoken (valid : validateCron (spokenCron facts) = .ok ()) :
    cronWeekdays (spokenCron facts) = {v : Int | ∃ day ∈ facts.days, v = (day : Nat)} := by
  have writable := writable_spoken wellRead
  have some := ((validateCron_written writable).mp valid).1
  have parts : fields (spokenCron facts) = [toString ((facts.time.getD 0).tmod 60),
      numberList (spokenHours facts), "*", "*",
      weekdayField (facts.days.map fun (day : Nat) => (day : Int))] := by
    unfold spokenCron
    rw [fields_written writable, fields_hours writable some]
    rfl
  have isField := fieldSet_weekdayField writable
  unfold cronWeekdays
  rw [parts]
  ext v
  constructor
  · rintro ⟨_, _, _, _, _, same, notStar, member⟩
    simp only [List.cons.injEq, and_true] at same
    obtain ⟨-, -, -, -, rfl⟩ := same
    rw [isField] at member
    obtain ⟨-, noDays | inDays⟩ := member
    · exact absurd (if_pos noDays) notStar
    · obtain ⟨day, inFacts, rfl⟩ := List.mem_map.mp inDays
      exact ⟨day, inFacts, rfl⟩
  · rintro ⟨day, inFacts, rfl⟩
    have listed := List.mem_map_of_mem (f := fun (day : Nat) => (day : Int)) inFacts
    have someDay := List.ne_nil_of_mem listed
    refine ⟨_, _, _, _, _, rfl, ?_, ?_⟩
    · unfold weekdayField
      rw [if_neg someDay]
      exact numberList_ne_star writable.readable_days
    · rw [isField]
      exact ⟨writable.days _ listed, .inr listed⟩

end Schedule

/-! ### Clear phrases -/

/-- The phrase asks for every hour besides, and the hours left in the day get a
firing each. -/
def Hourly (p : String) : Prop :=
  ¬ 0 < (nlBegin p).getD 0 ∧ contains p "every hour" = true ∧ contains p "every day" = false ∧
    ∃ t, nlTime p = some t ∧ t < 23 * 60

/-- Every day where no or all days are named, or every seven days on one day. -/
def EvenDays (p : String) (n : Int) : Prop :=
  (n = 1 ∧ (namedDays p = [0, 1, 2, 3, 4, 5, 6] ∨ namedDays p = [] ∧ ¬ Hourly p)) ∨
    (n = 7 ∧ ∃ day, namedDays p = [day])

structure Clear (p : String) : Prop where
  clock : ClockInDay p
  recurring : 0 < (nlBegin p).getD 0 → nlTime p = none → 0 < (nlInterval p).getD 0 →
    (toString ((nlInterval p).getD 0)).utf8ByteSize = 4 →
      (parseClock (toString ((nlInterval p).getD 0))).isSome = true
  days : (nlTime p).isSome = true ∨ ¬ 0 < (nlInterval p).getD 0 → DaysInWords p
  intervals : ∀ n, SaysEvery p n → EvenDays p n

section Clear

variable {p : String}

theorem namedDays_full : namedDays p = [0, 1, 2, 3, 4, 5, 6] ↔ ∀ day < 7, day ∈ namedDays p := by
  have range : List.range 7 = [0, 1, 2, 3, 4, 5, 6] := by decide
  constructor
  · intro full day isDay
    rw [full, ← range]
    exact List.mem_range.mpr isDay
  · intro all
    rw [← range]
    unfold namedDays
    rw [List.filter_eq_self]
    intro day member
    exact (List.mem_filter.mp (all day (List.mem_range.mp member))).2

theorem namedDays_single {day : Nat} (only : ∀ other, other ∈ namedDays p ↔ other = day) :
    namedDays p = [day] := by
  have nodup : (namedDays p).Nodup := List.Nodup.filter _ List.nodup_range
  match found : namedDays p with
  | [] =>
    rw [found] at only
    exact absurd ((only day).mpr rfl) (by simp)
  | [first] =>
    rw [found] at only
    rw [(only first).mp (by simp)]
  | first :: second :: rest =>
    rw [found] at only nodup
    have isFirst := (only first).mp (by simp)
    have isSecond := (only second).mp (by simp)
    simp [isFirst, isSecond] at nodup

/-- The weekdays of the expression, in terms of the named days. -/
theorem onWeekday_named {day : Nat} :
    OnWeekday ((namedDays p).map fun (day : Nat) => (day : Int)) day ↔
      namedDays p = [] ∨ day ∈ namedDays p := by
  unfold OnWeekday
  simp

/-- One firing on each of the named days. -/
theorem evenDays_of_oneHour {mm h : Int}
    (writable : Writable mm [h] ((namedDays p).map fun (day : Nat) => (day : Int)))
    (valid : validateCron (written mm [h] ((namedDays p).map fun (day : Nat) => (day : Int))) = .ok ())
    (n : Int) :
    DaysApart (written mm [h] ((namedDays p).map fun (day : Nat) => (day : Int))) n ↔
      (n = 1 ∧ (namedDays p = [0, 1, 2, 3, 4, 5, 6] ∨ namedDays p = [])) ∨
        (n = 7 ∧ ∃ day, namedDays p = [day]) := by
  rw [daysApart_written writable valid]
  have natural {d : Int} (low : 0 ≤ d) : ∃ day : Nat, d = day := ⟨d.toNat, by omega⟩
  refine or_congr (and_congr Iff.rfl ?_) (and_congr Iff.rfl ?_)
  · constructor
    · intro all
      by_cases noDays : namedDays p = []
      · exact .inr noDays
      · refine .inl (namedDays_full.mpr fun day isDay => ?_)
        exact (onWeekday_named.mp (all day (by omega) (by omega))).resolve_left noDays
    · rintro (full | noDays) d low high
      · obtain ⟨day, rfl⟩ := natural low
        exact onWeekday_named.mpr (.inr (namedDays_full.mp full day (by omega)))
      · obtain ⟨day, rfl⟩ := natural low
        exact onWeekday_named.mpr (.inl noDays)
  · constructor
    · rintro ⟨d, low, high, only⟩
      obtain ⟨day, rfl⟩ := natural low
      have noneMissing : namedDays p ≠ [] := by
        intro noDays
        have zero := (only 0 (by omega) (by omega)).mp (onWeekday_named.mpr (.inl noDays))
        have one := (only 1 (by omega) (by omega)).mp (onWeekday_named.mpr (.inl noDays))
        omega
      refine ⟨day, namedDays_single fun other => ?_⟩
      constructor
      · intro member
        have isDay := (mem_namedDays.mp member).1
        have same := (only other (by omega) (by omega)).mp (onWeekday_named.mpr (.inr member))
        omega
      · rintro rfl
        exact (onWeekday_named.mp ((only other low high).mpr rfl)).resolve_left noneMissing
    · rintro ⟨day, single⟩
      have isDay : day < 7 := (mem_namedDays.mp (single ▸ List.mem_singleton_self day)).1
      refine ⟨day, by omega, by omega, fun d low high => ?_⟩
      obtain ⟨other, rfl⟩ := natural low
      rw [onWeekday_named, single]
      simp

section Read

variable {facts : NlResult} (read : nlFacts p = some facts)
  (valid : validateCron (spokenCron facts) = .ok ()) (named : facts.days = namedDays p)

include read valid named

omit valid in
/-- With one hour, the phrase does not ask for more of them. -/
theorem not_hourly_of_oneHour (noDays : namedDays p = [])
    (oneHour : spokenHours facts = [(facts.time.getD 0).tdiv 60]) : ¬ Hourly p := by
  obtain ⟨isBegin, isInterval, isTime, -, isWell⟩ := wellRead read
  rintro ⟨noBegin, hourly, notDaily, t, given, early⟩
  have sixty : facts.intervalMin = 60 := isInterval.trans (nlInterval_of_hourly hourly notDaily)
  obtain ⟨range, hours, -⟩ := isWell.clock
  have isClock : facts.time.getD 0 = t := by rw [isTime, given]; rfl
  have stepped : spokenHours facts = hoursFrom ((facts.time.getD 0).tdiv 60) 1 := by
    unfold spokenHours
    rw [if_pos ⟨by rw [isTime, given]; rfl, by omega, by rw [named, noDays], by omega, by rw [sixty]; rfl⟩,
      sixty]
    rfl
  have twice := (@mem_hoursFrom_twice ((facts.time.getD 0).tdiv 60) 1 (by omega) (by omega)).2
  rw [← stepped, oneHour, List.mem_singleton] at twice
  omega

/-- With more than one hour, no two firings are days apart. -/
theorem not_daysApart_of_hours (moreHours : spokenHours facts ≠ [(facts.time.getD 0).tdiv 60])
    {n : Int} (said : SaysEvery p n) :
    ¬ DaysApart (spokenCron facts) n ∧ ¬ ∀ n, SaysEvery p n → EvenDays p n := by
  obtain ⟨isBegin, isInterval, isTime, -, isWell⟩ := wellRead read
  obtain ⟨range, hours, -⟩ := isWell.clock
  have early : facts.time.getD 0 < 1440 := by
    have inDay := (validateCron_spoken isWell).mp valid
    cases time : facts.time with
    | none => decide
    | some t => exact inDay t time
  have stepped : facts.time.isSome ∧ ¬ 0 < facts.beginMin ∧ facts.days = [] ∧
      0 < facts.intervalMin ∧ facts.intervalMin.tmod 60 = 0 := by
    by_contra noStep
    exact moreHours (if_neg noStep)
  have isHours : spokenHours facts =
      hoursFrom ((facts.time.getD 0).tdiv 60) (facts.intervalMin.tdiv 60) := if_pos stepped
  obtain ⟨timed, noBegin, noDays, positive, whole⟩ := stepped
  obtain ⟨stepPositive, isStep⟩ := stepHours positive whole
  have twice : (facts.time.getD 0).tdiv 60 + facts.intervalMin.tdiv 60 < 24 := by
    by_contra once
    apply moreHours
    rw [isHours, hoursFrom_eq_single (by omega) (by omega)]
  obtain ⟨inEarly, inLate⟩ := @mem_hoursFrom_twice ((facts.time.getD 0).tdiv 60)
    (facts.intervalMin.tdiv 60) (by omega) twice
  rw [← isHours] at inEarly inLate
  constructor
  · exact not_daysApart_written (writable_spoken isWell) valid (by simp [noDays]) inEarly inLate
      (by omega) said.1
  · intro even
    have noneNamed : namedDays p = [] := named ▸ noDays
    have daily : ∀ m, SaysEvery p m → m = 1 ∧ ¬ Hourly p := by
      intro m saidToo
      rcases even m saidToo with ⟨isOne, full | ⟨-, notHourly⟩⟩ | ⟨-, day, single⟩
      · rw [noneNamed] at full
        cases full
      · exact ⟨isOne, notHourly⟩
      · rw [noneNamed] at single
        cases single
    obtain ⟨t, isSome⟩ := Option.isSome_iff_exists.mp timed
    have isClock : facts.time.getD 0 = t := by rw [isSome]; rfl
    rcases nlInterval_of_daily (fun m saidToo => (daily m saidToo).1) said with
      aDay | none | aMinute | ⟨anHour, hourly, notDaily⟩
    · omega
    · omega
    · rw [isInterval, aMinute] at whole
      exact absurd whole (by decide)
    · refine (daily n said).2 ⟨by omega, hourly, notDaily, t, by rw [← isTime, isSome], ?_⟩
      omega

theorem intervals_iff :
    (∀ n, SaysEvery p n → DaysApart (spokenCron facts) n) ↔ ∀ n, SaysEvery p n → EvenDays p n := by
  obtain ⟨-, -, -, -, isWell⟩ := wellRead read
  by_cases oneHour : spokenHours facts = [(facts.time.getD 0).tdiv 60]
  · have writable := writable_spoken isWell
    have isCron := valid
    unfold spokenCron at isCron ⊢
    rw [oneHour, named] at isCron writable ⊢
    apply forall₂_congr
    intro n _
    rw [evenDays_of_oneHour writable isCron]
    unfold EvenDays
    refine or_congr (and_congr Iff.rfl (or_congr Iff.rfl ?_)) Iff.rfl
    constructor
    · intro noDays
      exact ⟨noDays, not_hourly_of_oneHour read named noDays oneHour⟩
    · exact And.left
  · constructor
    · intro apart n said
      exact absurd (apart n said) (not_daysApart_of_hours read valid named oneHour said).1
    · intro even n said
      exact absurd even (not_daysApart_of_hours read valid named oneHour said).2

end Read

/-- The schedule holds the expression, as its own or as its recurrence. -/
def HoldsCron (s : Schedule) (facts : NlResult) : Prop :=
  s.cron = spokenCron facts ∧ s.recurring = "" ∨
    s.cron = "" ∧ s.recurring = spokenCron facts ∧ 0 < facts.beginMin

theorem spokenCron_star (facts : NlResult) : hasChar '*' (spokenCron facts) = true := by
  rw [hasChar_iff]
  unfold spokenCron written
  rw [String.toList_append, String.toList_append, List.mem_append, List.mem_append]
  exact .inl (.inr (by decide))

theorem spokenCron_ne_empty (facts : NlResult) : spokenCron facts ≠ "" := by
  intro isEmpty
  have star := spokenCron_star facts
  rw [isEmpty] at star
  cases star

section Holds

variable {s : Schedule} {facts : NlResult} (holds : HoldsCron s facts)

include holds

theorem cronExpression_spoken : cronExpression s = some (spokenCron facts) := by
  unfold cronExpression
  rcases holds with ⟨isCron, -⟩ | ⟨noCron, isRecurring, -⟩
  · rw [isCron, if_pos (spokenCron_ne_empty facts)]
  · rw [noCron, if_neg (by decide), isRecurring, if_pos (spokenCron_star facts)]

/-- Both readers accept the expression or neither. -/
theorem accepts_spoken (isWell : WellRead facts) : ((s.cron ≠ "" → validateCron s.cron = .ok ()) ∧
      (s.recurring ≠ "" → ∀ edition, ∃ read, parseString edition s.recurring = .ok read)) ↔
        validateCron (spokenCron facts) = .ok () := by
  have notEmpty := spokenCron_ne_empty facts
  rcases holds with ⟨isCron, noRecurring⟩ | ⟨noCron, isRecurring, starts⟩
  · rw [isCron, noRecurring]
    exact ⟨fun both => both.1 notEmpty, fun valid => ⟨fun _ => valid, fun some => absurd rfl some⟩⟩
  · have oneHour : spokenHours facts = [(facts.time.getD 0).tdiv 60] := by
      unfold spokenHours
      rw [if_neg (fun stepped => stepped.2.1 starts)]
    have writable := writable_spoken isWell
    rw [noCron, isRecurring]
    unfold spokenCron at notEmpty ⊢
    rw [oneHour] at writable notEmpty ⊢
    constructor
    · intro both
      exact (parseString_written writable).mp (both.2 notEmpty .community)
    · intro valid
      exact ⟨fun some => absurd rfl some, fun _ _ => (parseString_written writable).mpr valid⟩

end Holds

theorem sameDays_of_weekdays
    (same : {v : Int | ∃ day ∈ nlDays p, v = (day : Nat)} = saidWeekdays p) :
    nlDays p = namedDays p := by
  apply nlDays_eq_of_mem
  intro day
  have member := Set.ext_iff.mp same day
  constructor
  · intro found
    obtain ⟨other, named, isDay⟩ := member.mp ⟨day, found, rfl⟩
    rwa [Int.ofNat_inj.mp isDay]
  · intro named
    obtain ⟨other, found, isDay⟩ := member.mpr ⟨day, named, rfl⟩
    rwa [Int.ofNat_inj.mp isDay]

variable {facts : NlResult}

/-- A schedule that holds an expression. -/
theorem meansWhatItSays_expression {s : Schedule} (read : nlFacts p = some facts)
    (timed : facts.time.isSome = true ∨ ¬ 0 < facts.intervalMin) (holds : HoldsCron s facts) :
    MeansWhatItSays p s ↔ Clear p := by
  obtain ⟨isBegin, isInterval, isTime, isDays, isWell⟩ := wellRead read
  have expression := cronExpression_spoken holds
  have accepts := accepts_spoken holds isWell
  have clock : ClockInDay p ↔ validateCron (spokenCron facts) = .ok () := by
    rw [clockInDay_iff, validateCron_spoken isWell, isTime]
  rw [isTime, isInterval] at timed
  constructor
  · intro means
    have valid := accepts.mp ⟨means.cron, means.recurring⟩
    have sameSets := means.weekdays _ expression
    rw [cronWeekdays_spoken isWell valid, isDays] at sameSets
    have sameDays := sameDays_of_weekdays sameSets
    refine ⟨clock.mpr valid, fun _ noTime interval => ?_, fun _ => nlDays_eq_iff.mp sameDays, ?_⟩
    · rcases timed with isTimed | noInterval
      · rw [noTime] at isTimed
        cases isTimed
      · exact absurd interval noInterval
    · apply (intervals_iff read valid (isDays.trans sameDays)).mp
      intro n said
      obtain ⟨expr, isExpr, apart⟩ := means.intervals n said
      rw [expression] at isExpr
      rwa [Option.some.inj isExpr]
  · intro clear
    have valid := clock.mp clear.clock
    have sameDays := nlDays_eq_iff.mpr (clear.days timed)
    have apart := (intervals_iff read valid (isDays.trans sameDays)).mpr clear.intervals
    obtain ⟨cron, recurring⟩ := accepts.mpr valid
    refine ⟨cron, recurring, fun n said => ⟨_, expression, apart n said⟩, fun expr isExpr => ?_⟩
    rw [← Option.some.inj (expression.symm.trans isExpr), cronWeekdays_spoken isWell valid, isDays,
      sameDays]
    rfl

theorem not_saysEvery_of_untimed (untimed : nlTime p = none) {n : Int} : ¬ SaysEvery p n := by
  rintro ⟨-, timed, -⟩
  rw [untimed] at timed
  cases timed

/-- A schedule whose recurrence is an interval. -/
theorem meansWhatItSays_interval {s : Schedule} (read : nlFacts p = some facts)
    (noTime : facts.time = none) (interval : 0 < facts.intervalMin) (starts : 0 < facts.beginMin)
    (noCron : s.cron = "") (isRecurring : s.recurring = toString facts.intervalMin) :
    MeansWhatItSays p s ↔ Clear p := by
  obtain ⟨isBegin, isInterval, isTime, isDays, isWell⟩ := wellRead read
  have readable : Readable facts.intervalMin := ⟨Int.le_of_lt interval, isWell.interval⟩
  have noStar : hasChar '*' s.recurring = false := by
    rw [isRecurring, ← Bool.not_eq_true, hasChar_iff]
    exact not_mem_toString readable (by decide)
  have noExpression : cronExpression s = none := by
    unfold cronExpression
    rw [noCron, if_neg (by decide), noStar]
    rfl
  have untimed : nlTime p = none := isTime.symm.trans noTime
  constructor
  · intro means
    refine ⟨clockInDay_iff.mpr ?_, fun _ _ _ => ?_, ?_, fun n said => absurd said (not_saysEvery_of_untimed untimed)⟩
    · exact fun t given => absurd (untimed.symm.trans given) (by simp)
    · have accepted := means.recurring (isRecurring ▸ toString_ne_empty readable) .community
      rw [isRecurring, parseString_number readable, isInterval] at accepted
      exact accepted
    · rintro (timed | noInterval)
      · rw [untimed] at timed
        cases timed
      · rw [← isInterval] at noInterval
        exact absurd interval noInterval
  · intro clear
    refine ⟨fun some => absurd noCron some, fun _ edition => ?_,
      fun n said => absurd said (not_saysEvery_of_untimed untimed), ?_⟩
    · rw [isRecurring, parseString_number readable, isInterval]
      exact clear.recurring (isBegin ▸ starts) untimed (isInterval ▸ interval)
    · intro expr isExpr
      rw [noExpression] at isExpr
      cases isExpr

/-- A schedule with neither. -/
theorem meansWhatItSays_neither {s : Schedule} (read : nlFacts p = some facts)
    (noTime : facts.time = none) (quiet : 0 < facts.intervalMin ∨ facts.days = [])
    (notBoth : ¬ (0 < facts.intervalMin ∧ 0 < facts.beginMin)) (noCron : s.cron = "")
    (noRecurring : s.recurring = "") : MeansWhatItSays p s ∧ Clear p := by
  obtain ⟨isBegin, isInterval, isTime, isDays, isWell⟩ := wellRead read
  have noExpression : cronExpression s = none := by
    unfold cronExpression
    rw [noCron, noRecurring]
    rfl
  have untimed : nlTime p = none := isTime.symm.trans noTime
  refine ⟨⟨fun some => absurd noCron some, fun some => absurd noRecurring some,
    fun n said => absurd said (not_saysEvery_of_untimed untimed), ?_⟩,
    ⟨clockInDay_iff.mpr ?_, ?_, ?_, fun n said => absurd said (not_saysEvery_of_untimed untimed)⟩⟩
  · intro expr isExpr
    rw [noExpression] at isExpr
    cases isExpr
  · exact fun t given => absurd (untimed.symm.trans given) (by simp)
  · intro starts _ interval
    rw [← isBegin] at starts
    rw [← isInterval] at interval
    exact absurd ⟨interval, starts⟩ notBoth
  · rintro (timed | noInterval)
    · rw [untimed] at timed
      cases timed
    · rw [← isInterval] at noInterval
      exact daysInWords_of_nil (isDays ▸ quiet.resolve_left noInterval)

/-- The schedule of a phrase means what the phrase says exactly if the phrase is
clear. -/
theorem meansWhatItSays_iff {phrase : String} {s : Schedule} (accepted : parseNL phrase = some s) :
    MeansWhatItSays (spoken phrase) s ↔ Clear (spoken phrase) := by
  obtain ⟨facts, read, built⟩ := Option.bind_eq_some_iff.mp accepted
  rcases nlSchedule_cases built with ⟨timed, holds⟩ |
    ⟨noTime, interval, starts, noCron, isRecurring⟩ | ⟨noTime, quiet, notBoth, noCron, noRecurring⟩
  · exact meansWhatItSays_expression read timed holds
  · exact meansWhatItSays_interval read noTime interval starts noCron isRecurring
  · obtain ⟨means, clear⟩ := meansWhatItSays_neither read noTime quiet notBoth noCron noRecurring
    exact ⟨fun _ => clear, fun _ => means⟩

/-- Two weekdays in the plural, and a time. -/
theorem meansWhatItSays_iff_weekdays :
    ∃ s, parseNL "Mondays and Fridays at 9:30 pm" = some s ∧ s.cron = "30 21 * * 1,5" ∧
      MeansWhatItSays (spoken "Mondays and Fridays at 9:30 pm") s := by
  have accepted : parseNL "Mondays and Fridays at 9:30 pm" =
      some { time := [1290], cron := "30 21 * * 1,5" } := by decide +kernel
  refine ⟨_, accepted, rfl, (meansWhatItSays_iff accepted).mpr ?_⟩
  have isSpoken : spoken "Mondays and Fridays at 9:30 pm" = "mondays and fridays at 9:30 pm" := by
    decide +kernel
  have isTime : nlTime "mondays and fridays at 9:30 pm" = some 1290 := by decide +kernel
  have noCount : findSubmatch (countPattern "every" "day") "mondays and fridays at 9:30 pm" = none := by
    decide +kernel
  rw [isSpoken]
  refine ⟨clockInDay_iff.mpr ?_, ?_, fun _ => ?_, ?_⟩
  · intro t given
    rw [isTime] at given
    cases given
    decide
  · intro _ noTime
    rw [isTime] at noTime
    cases noTime
  · rw [← nlDays_eq_iff]
    decide +kernel
  · rintro n ⟨-, -, start, tail, count, rest, shape, way, -⟩
    have found : (findSubmatch (countPattern "every" "day") "mondays and fridays at 9:30 pm").isSome := by
      unfold findSubmatch
      rw [shape]
      exact search_isSome way
    rw [noCount] at found
    cases found

/-- A time past the end of the day, days that are counted, and a month: the
expression is refused, fires every day, and is for Mondays. -/
theorem phrases_misread :
    (∃ s, parseNL "at 25:00" = some s ∧ ¬ MeansWhatItSays (spoken "at 25:00") s) ∧
    (∃ s, parseNL "every 2 days at 9:00" = some s ∧
      ¬ MeansWhatItSays (spoken "every 2 days at 9:00") s) ∧
    ∃ s, parseNL "monthly at 9:00" = some s ∧ ¬ MeansWhatItSays (spoken "monthly at 9:00") s := by
  refine ⟨⟨{ time := [1500], cron := "0 25 * * *" }, by decide +kernel, fun means => ?_⟩,
    ⟨{ time := [540], cron := "0 9 * * *" }, by decide +kernel, fun means => ?_⟩,
    ⟨{ time := [540], cron := "0 9 * * 1" }, by decide +kernel, fun means => ?_⟩⟩
  · have refused : validateCron "0 25 * * *" ≠ .ok () := by decide +kernel
    exact refused (means.cron (by decide))
  · have isSpoken : spoken "every 2 days at 9:00" = "every 2 days at 9:00" := by decide +kernel
    have said : SaysEvery "every 2 days at 9:00" 2 :=
      ⟨by decide, by decide +kernel, [], _, "2", "s at 9:00".toList, rfl, by decide +kernel,
        by decide⟩
    have isWritten : "0 9 * * *" = written 0 [9] [] := by decide +kernel
    have writable : Writable 0 [9] [] :=
      ⟨by decide, by simp [Readable, maxDuration], by simp⟩
    have valid : validateCron (written 0 [9] []) = .ok () := by
      rw [← isWritten]
      decide +kernel
    rw [isSpoken] at means
    obtain ⟨expr, isExpr, apart⟩ := means.intervals 2 said
    have isCron : expr = written 0 [9] [] := by
      rw [← isWritten]
      exact (Option.some.inj isExpr).symm
    rw [isCron, daysApart_written writable valid] at apart
    rcases apart with ⟨isOne, -⟩ | ⟨isSeven, -⟩
    · exact absurd isOne (by decide)
    · exact absurd isSeven (by decide)
  · have isSpoken : spoken "monthly at 9:00" = "monthly at 9:00" := by decide +kernel
    have noDay : namedDays "monthly at 9:00" = [] := by decide +kernel
    have onMonday : (1 : Int) ∈ cronWeekdays "0 9 * * 1" :=
      ⟨"0", "9", "*", "*", "1", by decide +kernel, by decide, "1", by decide +kernel, .value 1,
        .value (by decide +kernel), ⟨by decide, by decide⟩, rfl⟩
    rw [isSpoken] at means
    rw [means.weekdays "0 9 * * 1" rfl] at onMonday
    obtain ⟨day, named, -⟩ := onMonday
    rw [noDay] at named
    cases named

end Clear

end DbBackup.Scheduler
