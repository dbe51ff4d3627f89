import DbBackup.Scheduler.FieldSets

/-!
Owns the days of maintenance: `MaintenanceConfig.DueOn` with its own evaluator
`cronFieldMatch` (`internal/config/jobs.go`, `internal/config/schedule.go`),
beside `cronMatch` of the scheduler.

The two evaluators read a field alike and combine the fields differently: where
both the day of the month and the weekday are restricted, one of them is enough
for `DueOn` and both are needed for `cronMatch`. Contract: `sameDays_iff`.
-/

namespace DbBackup.Scheduler

open Config Lib.Scan Lib.Time Lib.Zone

/-! ### The evaluator of the configuration -/

/-- A field without a comma. -/
def cronAtomMatch (atom : String) (val min : Int) : Bool :=
  if atom = "*" then true
  else if hasChar '/' atom then stepMatch atom val min
  else if hasChar '-' atom then
    match parseRange atom with
    | none => false
    | some (a, b) => a ≤ val && val ≤ b
  else
    match atoi? atom with
    | none => false
    | some n => val = n

/-- `cronFieldMatch`; the elements of a list have no comma. -/
def cronFieldMatch (field : String) (val min : Int) : Bool :=
  if field = "*" then true
  else if hasChar ',' field then (splitChar ',' field).any fun p => cronAtomMatch p val min
  else cronAtomMatch field val min

structure MaintenanceConfig where
  schedule : String := ""
deriving DecidableEq

def dueOn (loc : Location) (m : Option MaintenanceConfig) (t : Int) : Bool :=
  match m with
  | none => true
  | some m =>
    if m.schedule = "" then true
    else
      match fields m.schedule with
      | [_, _, days, months, weekdays] =>
        let dom := cronFieldMatch days (loc.civil t).2.2 1
        let month := cronFieldMatch months (loc.civil t).2.1 1
        let wd := cronFieldMatch weekdays (loc.weekday t) 0
        if !month then false
        else if days ≠ "*" ∧ weekdays ≠ "*" then dom || wd
        else dom && wd
      | _ => true

theorem cronAtomMatch_eq {atom : String} (plain : hasQuote atom = false) (val min : Int) :
    cronAtomMatch atom val min = atomMatch atom val min := by
  unfold atomMatch
  rw [plain, if_neg (show ¬ false = true by decide)]
  rfl

/-- On an accepted field the two evaluators agree. -/
theorem cronFieldMatch_eq {field : String} {min max : Int}
    (valid : validateCronField field min max = .ok ()) (val : Int) :
    cronFieldMatch field val min = fieldMatch field val min := by
  have plain := hasQuote_of_cronChars (validateCronField_ok valid).1
  unfold cronFieldMatch fieldMatch
  simp only [plain, Bool.false_eq_true, ↓reduceIte, cronAtomMatch_eq plain]
  have parts : ((splitChar ',' field).any fun p => cronAtomMatch p val min) =
      (splitChar ',' field).any fun p => atomMatch p val min := by
    rw [Bool.eq_iff_iff, List.any_eq_true, List.any_eq_true]
    refine exists_congr fun p => and_congr_right fun member => ?_
    rw [cronAtomMatch_eq (part_plain valid member)]
  rw [parts]

/-! ### The days of an expression -/

/-- Maintenance is due on a day exactly if some minute of that day matches. -/
def SameDays (loc : Location) (expr : String) (t : Int) : Prop :=
  dueOn loc (some { schedule := expr }) t = true ↔
    ∃ u, loc.localDay u = loc.localDay t ∧ cronMatch loc expr u = true

/-- The clock shows a time of the first two fields on the day of `t`; a clock that
is set forward may skip all of them. -/
def ShowsTime (loc : Location) (minutes hours : String) (t : Int) : Prop :=
  ∃ u, loc.localDay u = loc.localDay t ∧ loc.clockMinute u ∈ fieldSet minutes 0 59 ∧
    loc.clockHour u ∈ fieldSet hours 0 23

/-- In a month of the expression: the two day fields agree on the day, where both
are restricted, and on a day of both the clock does not skip the time. -/
def DayFieldsAgree (loc : Location) (expr : String) (t : Int) : Prop :=
  ∀ minutes hours days months weekdays, fields expr = [minutes, hours, days, months, weekdays] →
    (loc.civil t).2.1 ∈ fieldSet months 1 12 →
      (days ≠ "*" ∧ weekdays ≠ "*" →
        ((loc.civil t).2.2 ∈ fieldSet days 1 31 ↔ loc.weekday t ∈ fieldSet weekdays 0 6)) ∧
      ((loc.civil t).2.2 ∈ fieldSet days 1 31 → loc.weekday t ∈ fieldSet weekdays 0 6 →
        ShowsTime loc minutes hours t)

section

variable {expr minutes hours days months weekdays : String}

theorem fields_ne_empty (accepted : CronFields expr minutes hours days months weekdays) :
    expr ≠ "" := by
  rintro rfl
  have none : fields "" = [] := by decide
  have parts := accepted.parts
  rw [none] at parts
  cases parts

/-- What `DueOn` checks, on an accepted expression. -/
theorem dueOn_iff (accepted : CronFields expr minutes hours days months weekdays) (loc : Location)
    (t : Int) :
    dueOn loc (some { schedule := expr }) t = true ↔
      (loc.civil t).2.1 ∈ fieldSet months 1 12 ∧
        if days ≠ "*" ∧ weekdays ≠ "*" then
          (loc.civil t).2.2 ∈ fieldSet days 1 31 ∨ loc.weekday t ∈ fieldSet weekdays 0 6
        else (loc.civil t).2.2 ∈ fieldSet days 1 31 ∧ loc.weekday t ∈ fieldSet weekdays 0 6 := by
  obtain ⟨-, -, isWeekday⟩ := clock_range loc t
  have isDay : 1 ≤ (loc.civil t).2.2 ∧ (loc.civil t).2.2 ≤ 31 := civilFromDays_day _
  have isMonth : 1 ≤ (loc.civil t).2.1 ∧ (loc.civil t).2.1 ≤ 12 := civilFromDays_month _
  rw [← fieldMatch_iff accepted.days isDay.1 isDay.2,
    ← fieldMatch_iff accepted.months isMonth.1 isMonth.2,
    ← fieldMatch_iff accepted.weekdays isWeekday.1 isWeekday.2,
    ← cronFieldMatch_eq accepted.days, ← cronFieldMatch_eq accepted.months,
    ← cronFieldMatch_eq accepted.weekdays]
  unfold dueOn
  simp only [if_neg (fields_ne_empty accepted), accepted.parts]
  cases cronFieldMatch months (loc.civil t).2.1 1 with
  | false => simp
  | true =>
    by_cases both : days ≠ "*" ∧ weekdays ≠ "*"
    · simp [both]
    · simp only [if_neg both, Bool.not_true, Bool.false_eq_true, ↓reduceIte, Bool.and_eq_true,
        true_and]

/-- A day has a matching minute if it is a day of both fields and the clock shows
the time. -/
theorem exists_cronMatch_iff (valid : validateCron expr = .ok ())
    (accepted : CronFields expr minutes hours days months weekdays) (loc : Location) (t : Int) :
    (∃ u, loc.localDay u = loc.localDay t ∧ cronMatch loc expr u = true) ↔
      (loc.civil t).2.1 ∈ fieldSet months 1 12 ∧ (loc.civil t).2.2 ∈ fieldSet days 1 31 ∧
        loc.weekday t ∈ fieldSet weekdays 0 6 ∧ ShowsTime loc minutes hours t := by
  have fits : ∀ u, cronMatch loc expr u = true ↔
      loc.clockMinute u ∈ fieldSet minutes 0 59 ∧ loc.clockHour u ∈ fieldSet hours 0 23 ∧
        (loc.civil u).2.2 ∈ fieldSet days 1 31 ∧ (loc.civil u).2.1 ∈ fieldSet months 1 12 ∧
        loc.weekday u ∈ fieldSet weekdays 0 6 := by
    intro u
    rw [cronMatch_iff valid]
    unfold Fits
    rw [accepted.parts]
    constructor
    · rintro ⟨_, _, _, _, _, same, components⟩
      simp only [List.cons.injEq, and_true] at same
      obtain ⟨rfl, rfl, rfl, rfl, rfl⟩ := same
      exact components
    · intro components
      exact ⟨_, _, _, _, _, rfl, components⟩
  simp only [fits]
  unfold ShowsTime Location.civil Location.weekday
  constructor
  · rintro ⟨u, sameDay, inMinutes, inHours, inDays, inMonths, inWeekdays⟩
    rw [sameDay] at inDays inMonths inWeekdays
    exact ⟨inMonths, inDays, inWeekdays, u, sameDay, inMinutes, inHours⟩
  · rintro ⟨inMonths, inDays, inWeekdays, u, sameDay, inMinutes, inHours⟩
    rw [← sameDay] at inDays inMonths inWeekdays
    exact ⟨u, sameDay, inMinutes, inHours, inDays, inMonths, inWeekdays⟩

end

/-- One of the two day fields, or both of them. -/
theorem combined_iff {month date weekday shows both : Prop} [Decidable both] :
    ((month ∧ if both then date ∨ weekday else date ∧ weekday) ↔
        (month ∧ date ∧ weekday ∧ shows)) ↔
      (month → (both → (date ↔ weekday)) ∧ (date → weekday → shows)) := by
  by_cases restricted : both
  · simp only [restricted, ↓reduceIte, forall_const]
    tauto
  · simp only [restricted, ↓reduceIte, false_implies, true_and]
    tauto

/-- The two evaluators name the same days exactly where the day fields agree. -/
theorem sameDays_iff {expr : String} (valid : validateCron expr = .ok ()) (loc : Location) (t : Int) :
    SameDays loc expr t ↔ DayFieldsAgree loc expr t := by
  obtain ⟨minutes, hours, days, months, weekdays, accepted⟩ := validateCron_ok valid
  have agree : DayFieldsAgree loc expr t ↔ ((loc.civil t).2.1 ∈ fieldSet months 1 12 →
      (days ≠ "*" ∧ weekdays ≠ "*" →
        ((loc.civil t).2.2 ∈ fieldSet days 1 31 ↔ loc.weekday t ∈ fieldSet weekdays 0 6)) ∧
      ((loc.civil t).2.2 ∈ fieldSet days 1 31 → loc.weekday t ∈ fieldSet weekdays 0 6 →
        ShowsTime loc minutes hours t)) := by
    unfold DayFieldsAgree
    rw [accepted.parts]
    constructor
    · exact fun all => all _ _ _ _ _ rfl
    · intro one _ _ _ _ _ same
      simp only [List.cons.injEq, and_true] at same
      obtain ⟨rfl, rfl, rfl, rfl, rfl⟩ := same
      exact one
  unfold SameDays
  rw [agree, dueOn_iff accepted, exists_cronMatch_iff valid accepted]
  exact combined_iff

/-- A clock that is never shifted skips no time, so there only the day fields
matter. -/
theorem showsTime_fixed {expr minutes hours days months weekdays : String}
    (accepted : CronFields expr minutes hours days months weekdays) (offset t : Int) :
    ShowsTime (fixedZone offset) minutes hours t := by
  obtain ⟨m, inMinutes⟩ := fieldSet_nonempty accepted.minutes (by decide)
  obtain ⟨h, inHours⟩ := fieldSet_nonempty accepted.hours (by decide)
  obtain ⟨mLow, mHigh⟩ := fieldSet_subset inMinutes
  obtain ⟨hLow, hHigh⟩ := fieldSet_subset inHours
  have shown : (fixedZone offset).localSecond
      (((fixedZone offset).localDay t * 86400 + h * 3600 + m * 60 - offset) * second) =
        (fixedZone offset).localDay t * 86400 + h * 3600 + m * 60 := by
    show _ * second / second + offset = _
    rw [Int.mul_ediv_cancel _ (by decide)]
    omega
  refine ⟨((fixedZone offset).localDay t * 86400 + h * 3600 + m * 60 - offset) * second, ?_, ?_, ?_⟩
  · rw [Location.localDay, shown]
    omega
  · have isMinute : ((fixedZone offset).localDay t * 86400 + h * 3600 + m * 60) % 3600 / 60 = m := by
      omega
    rwa [Location.clockMinute, shown, isMinute]
  · have isHour : ((fixedZone offset).localDay t * 86400 + h * 3600 + m * 60) % 86400 / 3600 = h := by
      omega
    rwa [Location.clockHour, shown, isHour]

/-- The first of every month, at one o'clock. -/
theorem sameDays_iff_monthly : SameDays (fixedZone 0) "0 1 1 * *" 0 := by
  have valid : validateCron "0 1 1 * *" = .ok () := by decide +kernel
  obtain ⟨minutes, hours, days, months, weekdays, accepted⟩ := validateCron_ok valid
  refine (sameDays_iff valid (fixedZone 0) 0).mpr ?_
  intro minutes' hours' days' months' weekdays' parts _
  have isFields : fields "0 1 1 * *" = ["0", "1", "1", "*", "*"] := by decide +kernel
  have same := accepted.parts.symm.trans parts
  simp only [List.cons.injEq, and_true] at same
  obtain ⟨rfl, rfl, rfl, rfl, rfl⟩ := same
  rw [isFields] at parts
  simp only [List.cons.injEq, and_true] at parts
  refine ⟨fun restricted => absurd parts.2.2.2.2.symm restricted.2, fun _ _ => ?_⟩
  exact showsTime_fixed accepted 0 0

/-- The epoch was the first of a month and a Thursday: due for the first or a
Friday, and no minute of it is on both. -/
theorem first_or_friday :
    validateCron "0 0 1 * 5" = .ok () ∧ dueOn (fixedZone 0) (some { schedule := "0 0 1 * 5" }) 0 = true ∧
      ∀ u, (fixedZone 0).localDay u = (fixedZone 0).localDay 0 →
        cronMatch (fixedZone 0) "0 0 1 * 5" u = false := by
  refine ⟨by decide +kernel, by decide +kernel, fun u sameDay => ?_⟩
  have parts : fields "0 0 1 * 5" = ["0", "0", "1", "*", "5"] := by decide +kernel
  have notFriday : fieldMatch "5" ((fixedZone 0).weekday u) 0 = false := by
    unfold Location.weekday
    rw [sameDay]
    decide +kernel
  unfold cronMatch
  rw [parts]
  simp only [notFriday, Bool.and_false]

end DbBackup.Scheduler
