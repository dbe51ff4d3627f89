import DbBackup.Config.Load
import DbBackup.Lib.Zone

/-!
Owns the wait until the next run of a job: `cronMatch`, `nextCronAt`,
`parseBeginAt`, `TimeList.Next`, `nextAnchoredDuration` and
`nextJobDurationAt` of `internal/scheduler/cron.go`.

A wait is a number of nanoseconds, and `none` is a panic. The scheduler runs a
job at once if the wait is not positive. Contract: exactly which accepted
schedules wait at every instant (`neverBackToBack_iff`).
-/

set_option linter.all false

namespace DbBackup.Scheduler

open Config Lib.Duration Lib.GoString Lib.Scan Lib.Time Lib.Zone

/-! ### Cron expressions -/

def stepMatch (atom : String) (val min : Int) : Bool :=
  let (base, step) := cut '/' atom
  match atoi? (step.getD "") with
  | none => false
  | some step =>
    if step ≤ 0 then false
    else if base = "*" then (val - min).tmod step = 0
    else
      match atoi? base with
      | none => false
      | some start => start ≤ val && (val - start).tmod step = 0

/-- A field without a comma. -/
def atomMatch (atom : String) (val min : Int) : Bool :=
  if atom = "*" then true
  else if hasQuote atom then false
  else if hasChar '/' atom then stepMatch atom val min
  else if hasChar '-' atom then
    match parseRange atom with
    | none => false
    | some (a, b) => a ≤ val && val ≤ b
  else
    match atoi? atom with
    | none => false
    | some n => val = n

/-- `fieldMatch`; the elements of a list have no comma, so its recursion is one
level deep. -/
def fieldMatch (field : String) (val min : Int) : Bool :=
  if field = "*" then true
  else if hasQuote field then false
  else if hasChar ',' field then (splitChar ',' field).any fun p => atomMatch p val min
  else atomMatch field val min

def cronMatch (loc : Location) (expr : String) (t : Int) : Bool :=
  match fields expr with
  | [minutes, hours, days, months, weekdays] =>
    fieldMatch minutes (loc.clockMinute t) 0 && fieldMatch hours (loc.clockHour t) 0 &&
      fieldMatch days (loc.civil t).2.2 1 && fieldMatch months (loc.civil t).2.1 1 &&
      fieldMatch weekdays (loc.weekday t) 0
  | _ => false

/-- The loop of `nextCronAt`, with the minutes left to look at. -/
def cronSearch (loc : Location) (expr : String) : Nat → Int → Option Int
  | 0, _ => none
  | left + 1, next =>
    if cronMatch loc expr next then some next else cronSearch loc expr left (next + minute)

def nextCronAt (loc : Location) (expr : String) (now : Int) : Int :=
  match cronSearch loc expr 525600 ((now + minute) / minute * minute) with
  | some next => sub next now
  | none => 0

/-! ### The other kinds of schedules -/

def parseBeginAt (loc : Location) (text : String) (now : Int) : Int :=
  if hasPrefix text "+" then
    if 0 < scanPlus text then wrap64 (scanPlus text * minute) else 0
  else if text.utf8ByteSize = 4 then
    let (h, m, _) := scanPair [] text
    let target := loc.dateOn now h m
    if target < now then sub (target + day) now else sub target now
  else 0

/-- `TimeList.Next`. -/
def nextTime (loc : Location) (times : List Int) (now : Int) : Option Int :=
  match times with
  | [] => none
  | first :: _ =>
    match times.find? fun m => loc.minuteOfDay now < m with
    | some m => some (loc.dateOn now (m.tdiv 60) (m.tmod 60))
    | none => some (loc.dateOn now (first.tdiv 60) (first.tmod 60) + day)

/-- The wait until the next point of the grid through an anchor; `none` is a
division by zero. -/
def anchorWait (loc : Location) (step now anchor : Int) : Option Int :=
  if step = 0 then none
  else
    let rem := (sub now (loc.dateOn now (anchor.tdiv 60) (anchor.tmod 60))).tmod step
    let rem := if rem < 0 then wrap64 (rem + step) else rem
    some (if rem = 0 then step else wrap64 (step - rem))

def nextAnchoredDuration (loc : Location) (anchors : List Int) (intervalMin now : Int) : Option Int :=
  if anchors = [] ∨ intervalMin ≤ 0 then some 0
  else
    anchors.foldlM (fun best anchor =>
      (anchorWait loc (wrap64 (intervalMin * minute)) now anchor).map fun d =>
        if best = 0 ∨ d < best then d else best) 0

def nextJobDurationAt (loc : Location) (s : Schedule) (now : Int) : Option Int :=
  if s.cron ≠ "" then some (nextCronAt loc s.cron now)
  else if 0 < s.interval then
    if s.time ≠ [] then nextAnchoredDuration loc s.time s.interval now
    else some (wrap64 (s.interval * minute))
  else if s.beginAt ≠ "" then some (parseBeginAt loc s.beginAt now)
  else
    match nextTime loc s.time now with
    | some next => some (sub next now)
    | none => some 0

/-- At every instant there is a wait. -/
def NeverBackToBack (loc : Location) (s : Schedule) : Prop :=
  ∀ now, ∃ d, nextJobDurationAt loc s now = some d ∧ 0 < d

/-! ### The search for a matching minute -/

theorem cronSearch_eq_some {loc : Location} {expr : String} {left : Nat} {start next : Int}
    (found : cronSearch loc expr left start = some next) : start ≤ next := by
  induction left generalizing start with
  | zero => cases found
  | succ left ih =>
    rw [cronSearch] at found
    split at found
    · exact le_of_eq (Option.some.inj found)
    · have later := ih found
      unfold minute second at later
      omega

theorem cronSearch_isSome {loc : Location} {expr : String} {left : Nat} {start : Int} :
    (cronSearch loc expr left start).isSome = true ↔
      ∃ i : Nat, i < left ∧ cronMatch loc expr (start + i * minute) = true := by
  induction left generalizing start with
  | zero => simp [cronSearch]
  | succ left ih =>
    rw [cronSearch]
    by_cases now : cronMatch loc expr start = true
    · rw [if_pos now]
      exact ⟨fun _ => ⟨0, Nat.succ_pos _, by simpa using now⟩, fun _ => rfl⟩
    · rw [if_neg now, ih]
      constructor
      · rintro ⟨i, inside, found⟩
        refine ⟨i + 1, by omega, ?_⟩
        rwa [Int.natCast_add, Int.natCast_one, Int.add_mul, Int.one_mul, Int.add_comm (i * minute),
          ← Int.add_assoc]
      · rintro ⟨i, inside, found⟩
        cases i with
        | zero => exact absurd (by simpa using found) now
        | succ i =>
          refine ⟨i, by omega, ?_⟩
          rwa [Int.natCast_add, Int.natCast_one, Int.add_mul, Int.one_mul,
            Int.add_comm (i * minute), ← Int.add_assoc] at found

/-- Every 525600 minutes in a row hold one that matches. -/
def CronDense (loc : Location) (expr : String) : Prop :=
  ∀ k : Int, ∃ i : Nat, i < 525600 ∧ cronMatch loc expr ((k + i) * minute) = true

variable (loc : Location)

theorem nextCronAt_pos_iff (expr : String) :
    (∀ now, 0 < nextCronAt loc expr now) ↔ CronDense loc expr := by
  have found : ∀ now, 0 < nextCronAt loc expr now ↔
      (cronSearch loc expr 525600 ((now + minute) / minute * minute)).isSome = true := by
    intro now
    unfold nextCronAt
    cases search : cronSearch loc expr 525600 ((now + minute) / minute * minute) with
    | none => simp
    | some next =>
      have later := cronSearch_eq_some search
      have ahead : now < next := by
        unfold minute second at later
        omega
      simp [sub_pos_iff, ahead]
  constructor
  · intro positive k
    have isFound := (found ((k - 1) * minute)).mp (positive _)
    have start : ((k - 1) * minute + minute) / minute * minute = k * minute := by
      unfold minute second
      omega
    rw [start] at isFound
    obtain ⟨i, inside, matched⟩ := cronSearch_isSome.mp isFound
    exact ⟨i, inside, by rwa [Int.add_mul]⟩
  · intro dense now
    rw [found, cronSearch_isSome]
    obtain ⟨i, inside, matched⟩ := dense ((now + minute) / minute)
    exact ⟨i, inside, by rwa [← Int.add_mul]⟩

/-! ### The grid through the anchors -/

theorem anchorWait_pos {loc : Location} {step : Int} (positive : 0 < step)
    (bounded : step ≤ maxDuration) (now anchor : Int) :
    ∃ d, anchorWait loc step now anchor = some d ∧ 0 < d := by
  unfold anchorWait
  rw [if_neg (by omega)]
  simp only [Option.some.injEq, exists_eq_left']
  have low := Int.lt_tmod_of_pos
    (sub now (loc.dateOn now (anchor.tdiv 60) (anchor.tmod 60))) positive
  have high := Int.tmod_lt_of_pos
    (sub now (loc.dateOn now (anchor.tdiv 60) (anchor.tmod 60))) positive
  generalize (sub now (loc.dateOn now (anchor.tdiv 60) (anchor.tmod 60))).tmod step = rem at low high
  have inRange : ∀ value, 0 < value → value ≤ step → wrap64 value = value := by
    intro value above below
    apply wrap64_eq_self
    · unfold minDuration
      omega
    · omega
  by_cases negative : rem < 0
  · rw [if_pos negative, inRange (rem + step) (by omega) (by omega), if_neg (by omega),
      inRange _ (by omega) (by omega)]
    omega
  · rw [if_neg negative]
    by_cases onGrid : rem = 0
    · rw [if_pos onGrid]
      exact positive
    · rw [if_neg onGrid, inRange _ (by omega) (by omega)]
      omega

section Anchors

variable {loc : Location} {step now : Int}

/-- The loop of `nextAnchoredDuration` from a best wait on. -/
def bestWait (loc : Location) (step now : Int) (anchors : List Int) (best : Int) : Option Int :=
  anchors.foldlM (fun best anchor =>
    (anchorWait loc step now anchor).map fun d => if best = 0 ∨ d < best then d else best) best

theorem bestWait_cons (anchor : Int) (rest : List Int) (best : Int) :
    bestWait loc step now (anchor :: rest) best =
      (anchorWait loc step now anchor).bind fun d =>
        bestWait loc step now rest (if best = 0 ∨ d < best then d else best) := by
  unfold bestWait
  rw [List.foldlM_cons]
  cases anchorWait loc step now anchor <;> rfl

theorem bestWait_pos (positive : 0 < step) (bounded : step ≤ maxDuration) (anchors : List Int)
    {best : Int} (low : 0 ≤ best) (some : 0 < best ∨ anchors ≠ []) :
    ∃ d, bestWait loc step now anchors best = .some d ∧ 0 < d := by
  induction anchors generalizing best with
  | nil =>
    have above : 0 < best := some.resolve_right (by simp)
    exact ⟨best, rfl, above⟩
  | cons anchor rest ih =>
    obtain ⟨d, isWait, above⟩ := @anchorWait_pos loc step positive bounded now anchor
    rw [bestWait_cons, isWait]
    apply ih
    · split <;> omega
    · left
      split
      · exact above
      · omega

/-- A negative step is never left again once it is the best wait. -/
theorem bestWait_le (negative : step < 0) (anchors : List Int) {best : Int} (low : best ≤ step) :
    ∃ d, bestWait loc step now anchors best = some d ∧ d ≤ step := by
  induction anchors generalizing best with
  | nil => exact ⟨best, rfl, low⟩
  | cons anchor rest ih =>
    have isWait : ∃ d, anchorWait loc step now anchor = some d := by
      unfold anchorWait
      rw [if_neg (by omega)]
      exact ⟨_, rfl⟩
    obtain ⟨d, isWait⟩ := isWait
    rw [bestWait_cons, isWait]
    apply ih
    split <;> omega

end Anchors

theorem anchorWait_shown {loc : Location} {step now anchor : Int} (notZero : step ≠ 0)
    (shown : loc.dateOn now (anchor.tdiv 60) (anchor.tmod 60) = now) :
    anchorWait loc step now anchor = some step := by
  unfold anchorWait
  rw [if_neg notZero, shown]
  simp

theorem tdiv_tmod_minutes (anchor : Int) :
    anchor.tdiv 60 * 3600 + anchor.tmod 60 * 60 = anchor * 60 := by
  have parts := Int.mul_tdiv_add_tmod anchor 60
  omega

theorem exists_dateOn_eq {anchor : Int} (low : 0 ≤ anchor) (high : anchor < 1440) :
    ∃ now, loc.dateOn now (anchor.tdiv 60) (anchor.tmod 60) = now := by
  obtain ⟨now, -, found⟩ := @Location.exists_shown loc (anchor * 60) (by omega) (by omega)
  refine ⟨now, ?_⟩
  have today := found 0 (by omega)
  rw [Location.dateOn_eq, Int.add_assoc, tdiv_tmod_minutes]
  simpa using today

theorem nextAnchoredDuration_pos_iff {anchors : List Int} {interval : Int}
    (notEmpty : anchors ≠ []) (positive : 0 < interval)
    (inDay : ∀ m ∈ anchors, 0 ≤ m ∧ m < 1440) :
    (∀ now, ∃ d, nextAnchoredDuration loc anchors interval now = some d ∧ 0 < d) ↔
      0 < wrap64 (interval * minute) := by
  have shape : ∀ now, nextAnchoredDuration loc anchors interval now =
      bestWait loc (wrap64 (interval * minute)) now anchors 0 := by
    intro now
    unfold nextAnchoredDuration
    rw [if_neg (by simp [notEmpty]; omega)]
    rfl
  simp only [shape]
  constructor
  · intro waits
    by_contra notPositive
    cases anchors with
    | nil => exact notEmpty rfl
    | cons anchor rest =>
      obtain ⟨low, high⟩ := inDay anchor List.mem_cons_self
      obtain ⟨now, shown⟩ := exists_dateOn_eq loc low high
      obtain ⟨d, isWait, above⟩ := waits now
      rw [bestWait_cons] at isWait
      by_cases zero : wrap64 (interval * minute) = 0
      · unfold anchorWait at isWait
        rw [if_pos zero] at isWait
        cases isWait
      · rw [anchorWait_shown zero shown] at isWait
        obtain ⟨least, isLeast, below⟩ := @bestWait_le loc (wrap64 (interval * minute)) now
          (by omega) rest (wrap64 (interval * minute)) (le_refl _)
        simp only [Option.bind_some, true_or, if_true] at isWait
        rw [isLeast] at isWait
        have same := Option.some.inj isWait
        omega
  · intro stepPositive now
    apply bestWait_pos stepPositive _ anchors (le_refl 0) (.inr notEmpty)
    unfold wrap64 maxDuration
    omega

/-! ### Begin -/

variable {text : String}

/-- The clock time an accepted begin of four bytes is read to lies within a day
of midnight. -/
theorem scanPair_of_validateBegin (valid : validateBegin text = .ok ())
    (fourBytes : text.utf8ByteSize = 4) :
    -1440 ≤ (scanPair [] text).1 * 60 + (scanPair [] text).2.1 ∧
      (scanPair [] text).1 * 60 + (scanPair [] text).2.1 < 1440 := by
  unfold validateBegin at valid
  simp only at valid
  split at valid
  · cases valid
  · split at valid
    · rename_i plus
      obtain ⟨rest, begins⟩ := (hasPrefix_iff _ _).mp plus
      obtain ⟨-, after, -, dropped⟩ := trimSpace_parts text
      have shape : text.toList.dropWhile isSpace = '+' :: (rest.toList ++ after.toList) := by
        rw [dropped, begins, String.toList_append]
        rfl
      obtain ⟨hours, minutes⟩ := scanPair_plus shape
      omega
    · split at valid
      · rename_i digits
        have same := trimSpace_eq_self (digits.1.trans fourBytes.symm)
        rw [same] at valid
        split at valid
        · rename_i isClock
          obtain ⟨m, clock⟩ := Option.isSome_iff_exists.mp isClock
          unfold parseClock at clock
          rw [if_pos fourBytes] at clock
          simp only at clock
          split at clock
          · rename_i h m scanned
            split at clock
            · cases clock
            · rename_i inside
              rw [Option.some.inj scanned]
              show -1440 ≤ h * 60 + m ∧ h * 60 + m < 1440
              omega
          · cases clock
        · cases valid
      · cases valid

/-- A begin that is a clock time is reached: at that very instant the wait is
zero. -/
theorem exists_parseBeginAt_eq_zero
    (valid : validateBegin text = .ok ()) (noPlus : hasPrefix text "+" = false) :
    ∃ now, parseBeginAt loc text now = 0 := by
  unfold parseBeginAt
  simp only [noPlus, Bool.false_eq_true, ↓reduceIte]
  by_cases fourBytes : text.utf8ByteSize = 4
  · simp only [fourBytes, ↓reduceIte]
    obtain ⟨low, high⟩ := scanPair_of_validateBegin valid fourBytes
    generalize (scanPair [] text).1 = h at low high
    generalize (scanPair [] text).2.1 = m at low high
    by_cases today : 0 ≤ h * 60 + m
    · obtain ⟨now, -, found⟩ := @Location.exists_shown loc ((h * 60 + m) * 60) (by omega) (by omega)
      have isTarget : loc.dateOn now h m = now := by
        have shown := found 0 (by omega)
        rw [Location.dateOn_eq, Int.add_assoc]
        have wall : h * 3600 + m * 60 = (h * 60 + m) * 60 := by omega
        rw [wall]
        simpa using shown
      refine ⟨now, ?_⟩
      rw [isTarget, if_neg (by omega), sub_self]
    · obtain ⟨now, -, found⟩ := @Location.exists_shown loc ((h * 60 + m + 1440) * 60) (by omega)
        (by omega)
      have isTarget : loc.dateOn now h m = now - day := by
        have shown := found (-1) (by omega)
        have wall : loc.localDay now * 86400 + h * 3600 + m * 60 =
            (loc.localDay now + -1) * 86400 + (h * 60 + m + 1440) * 60 := by omega
        rw [Location.dateOn_eq, wall, shown]
        omega
      refine ⟨now, ?_⟩
      rw [isTarget, if_pos (by unfold day hour minute second; omega), Int.sub_add_cancel, sub_self]
  · simp only [fourBytes, ↓reduceIte]
    exact ⟨0, trivial⟩

theorem parseBeginAt_pos_iff (valid : validateBegin text = .ok ()) :
    (∀ now, 0 < parseBeginAt loc text now) ↔
      hasPrefix text "+" = true ∧ 0 < scanPlus text ∧ 0 < wrap64 (scanPlus text * minute) := by
  by_cases plus : hasPrefix text "+" = true
  · unfold parseBeginAt
    simp only [plus, ↓reduceIte, true_and, forall_const]
    by_cases positive : 0 < scanPlus text
    · simp [positive]
    · simp [positive]
  · have noPlus : hasPrefix text "+" = false := by simpa using plus
    constructor
    · intro waits
      obtain ⟨now, zero⟩ := exists_parseBeginAt_eq_zero loc valid noPlus
      have positive := waits now
      omega
    · rintro ⟨hasPlus, -⟩
      exact absurd hasPlus plus

/-! ### Clock times -/

/-- The next listed time on a clock that shows `shown`, as a second of the local
day and the whole days added to it. -/
def nextWall (times : List Int) (shown : Int) : Int × Int :=
  match times.find? fun m => shown % 86400 / 60 < m with
  | some m => (shown / 86400 * 86400 + m * 60, 0)
  | none => (shown / 86400 * 86400 + times.headD 0 * 60, 86400)

/-- How much further east of UTC the zone is at the second `time.Date` finds for
`wall` than now. -/
def clockShift (loc : Location) (now wall : Int) : Int :=
  loc.offsetAt (wall - loc.offsetAt wall) - loc.offsetAt (unixSecond now)

/-- No shift of the clock is as long as the clock still has to run to the next
listed time. -/
def ClockKeeps (loc : Location) (times : List Int) : Prop :=
  ∀ now, let (wall, added) := nextWall times (loc.localSecond now)
    clockShift loc now wall < wall + added - loc.localSecond now

theorem nextTime_eq {times : List Int} (notEmpty : times ≠ []) (now : Int) :
    nextTime loc times now =
      some ((loc.unixOf (nextWall times (loc.localSecond now)).1 +
        (nextWall times (loc.localSecond now)).2) * second) := by
  have onDay : ∀ m : Int, loc.dateOn now (m.tdiv 60) (m.tmod 60) =
      loc.unixOf (loc.localSecond now / 86400 * 86400 + m * 60) * second := by
    intro m
    rw [Location.dateOn_eq, Int.add_assoc, tdiv_tmod_minutes]
    rfl
  cases times with
  | nil => exact absurd rfl notEmpty
  | cons first rest =>
    unfold nextTime nextWall Location.minuteOfDay
    cases (first :: rest).find? fun m => loc.localSecond now % 86400 / 60 < m with
    | some m => simp [onDay]
    | none =>
      simp only [onDay, List.headD_cons, Option.some.injEq]
      unfold day hour minute second
      omega

theorem nextTime_pos_iff {times : List Int} (notEmpty : times ≠ []) (now : Int) :
    (∃ next, nextTime loc times now = some next ∧ 0 < sub next now) ↔
      clockShift loc now (nextWall times (loc.localSecond now)).1 <
        (nextWall times (loc.localSecond now)).1 + (nextWall times (loc.localSecond now)).2 -
          loc.localSecond now := by
  rw [nextTime_eq loc notEmpty]
  simp only [Option.some.injEq, exists_eq_left', sub_pos_iff]
  unfold clockShift Location.unixOf Location.localSecond unixSecond second
  omega

/-! ### The schedule -/

/-- When a schedule is ahead of every instant, by the part the scheduler looks
at. -/
def FiresAhead (loc : Location) (s : Schedule) : Prop :=
  if s.cron ≠ "" then CronDense loc s.cron
  else if 0 < s.interval then 0 < wrap64 (s.interval * minute)
  else if s.beginAt ≠ "" then
    hasPrefix s.beginAt "+" = true ∧ 0 < scanPlus s.beginAt ∧
      0 < wrap64 (scanPlus s.beginAt * minute)
  else s.time ≠ [] ∧ ClockKeeps loc s.time

/-- An accepted schedule waits at every instant exactly if it is ahead. -/
theorem neverBackToBack_iff {edition : Edition} {s : Schedule} (accepted : Accepted edition s)
    (loc : Location) : NeverBackToBack loc s ↔ FiresAhead loc s := by
  have spec := accepted_spec accepted
  unfold NeverBackToBack FiresAhead nextJobDurationAt
  by_cases hasCron : s.cron ≠ ""
  · simp only [if_pos hasCron, Option.some.injEq, exists_eq_left']
    exact nextCronAt_pos_iff loc s.cron
  · have noCron : s.cron = "" := by simpa using hasCron
    simp only [if_neg hasCron]
    by_cases hasInterval : 0 < s.interval
    · simp only [if_pos hasInterval]
      by_cases hasTime : s.time ≠ []
      · simp only [if_pos hasTime]
        exact nextAnchoredDuration_pos_iff loc hasTime hasInterval (spec.timed noCron)
      · simp only [if_neg hasTime, Option.some.injEq, exists_eq_left', forall_const]
    · simp only [if_neg hasInterval]
      by_cases hasBegin : s.beginAt ≠ ""
      · simp only [if_pos hasBegin, Option.some.injEq, exists_eq_left']
        exact parseBeginAt_pos_iff loc (spec.beginAt hasBegin)
      · simp only [if_neg hasBegin]
        by_cases hasTime : s.time = []
        · simp [hasTime, nextTime]
        · rw [and_iff_right hasTime]
          constructor
          · intro waits now
            apply (nextTime_pos_iff loc hasTime now).mp
            obtain ⟨d, isWait, positive⟩ := waits now
            rw [nextTime_eq loc hasTime] at isWait ⊢
            rw [← Option.some.inj isWait] at positive
            exact ⟨_, rfl, positive⟩
          · intro keeps now
            obtain ⟨next, isNext, positive⟩ := (nextTime_pos_iff loc hasTime now).mpr (keeps now)
            rw [isNext]
            exact ⟨_, rfl, positive⟩

theorem neverBackToBack_hourly :
    Accepted .community { interval := 60 } ∧
      NeverBackToBack (fixedZone 3600) { interval := 60 } := by
  have accepted : Accepted .community { interval := 60 } :=
    ⟨.scalar "60", by decide +kernel⟩
  refine ⟨accepted, (neverBackToBack_iff accepted _).mpr ?_⟩
  show 0 < wrap64 (60 * minute)
  decide +kernel

/-- February has no thirtieth day, in any zone. -/
theorem cronMatch_thirtiethFebruary (t : Int) : cronMatch loc "0 0 30 2 *" t = false := by
  have parts : fields "0 0 30 2 *" = ["0", "0", "30", "2", "*"] := by decide +kernel
  have day : ∀ val, fieldMatch "30" val 1 = decide (val = 30) := by
    intro val
    have value : atoi? "30" = some 30 := by decide +kernel
    have plain : "30" ≠ "*" ∧ hasQuote "30" = false ∧ hasChar ',' "30" = false ∧
        hasChar '/' "30" = false ∧ hasChar '-' "30" = false := by decide +kernel
    simp [fieldMatch, atomMatch, value, plain]
  have month : ∀ val, fieldMatch "2" val 1 = decide (val = 2) := by
    intro val
    have value : atoi? "2" = some 2 := by decide +kernel
    have plain : "2" ≠ "*" ∧ hasQuote "2" = false ∧ hasChar ',' "2" = false ∧
        hasChar '/' "2" = false ∧ hasChar '-' "2" = false := by decide +kernel
    simp [fieldMatch, atomMatch, value, plain]
  unfold cronMatch
  rw [parts]
  simp only [day, month]
  by_contra matched
  simp only [Bool.not_eq_false, Bool.and_eq_true, decide_eq_true_eq] at matched
  obtain ⟨⟨⟨-, isDay⟩, isMonth⟩, -⟩ := matched
  obtain ⟨y, m, d, era, century, group, year, dayOfYear, monthIndex, isDate, march⟩ :=
    civilFromDays_eq (loc.localDay t)
  unfold Location.civil at isDay isMonth
  rw [isDate] at isDay isMonth
  simp only at isDay isMonth
  obtain ⟨eraDay, isIndex, isDayOf, isMonthOf⟩ := march
  have range := eraDay.dayRange
  omega

/-- Accepted schedules that recur without a wait: a date that never comes, a
recurrence that is itself an offset, and an interval whose nanoseconds overflow
to zero under an anchor. -/
theorem accepted_backToBack :
    (∃ s, loadSchedule .community (.scalar "0 0 30 2 *") = .ok s ∧ s.isRecurring = true ∧
      ∀ loc now, nextJobDurationAt loc s now = some 0) ∧
    (∃ s, loadSchedule .community (.mapping { recurring := "+5" }) = .ok s ∧
      s.isRecurring = true ∧ ∀ loc now, nextJobDurationAt loc s now = some 0) ∧
    ∃ s, loadSchedule .community
        (.mapping { interval := 2 ^ 53, time := some (.scalar "0300") }) = .ok s ∧
      s.isRecurring = true ∧ ∀ loc now, nextJobDurationAt loc s now = none := by
  refine ⟨⟨{ cron := "0 0 30 2 *" }, by decide +kernel, by decide +kernel, ?_⟩,
    ⟨{ recurring := "+5" }, by decide +kernel, by decide +kernel, fun _ _ => rfl⟩,
    ⟨{ interval := 2 ^ 53, time := [180] }, by decide +kernel, by decide +kernel, ?_⟩⟩
  · intro loc now
    have never : ∀ left start, cronSearch loc "0 0 30 2 *" left start = none := by
      intro left
      induction left with
      | zero => exact fun _ => rfl
      | succ left ih =>
        intro start
        rw [cronSearch, cronMatch_thirtiethFebruary, if_neg (by decide)]
        exact ih _
    unfold nextJobDurationAt nextCronAt
    rw [if_pos (by decide), never]
  · intro loc now
    have zero : wrap64 (2 ^ 53 * minute) = 0 := by decide +kernel
    unfold nextJobDurationAt nextAnchoredDuration anchorWait
    rw [if_neg (by decide), if_pos (by decide), if_pos (by decide), if_neg (by decide), zero]
    rfl

end DbBackup.Scheduler
