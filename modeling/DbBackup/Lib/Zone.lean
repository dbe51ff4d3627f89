import DbBackup.Lib.Calendar

/-!
Owns the local clock: a location, the wall clock it shows at an instant, and
`time.Date`, which looks for the instant at which the clock shows a given time.

A location gives the offset from UTC at every second. Its transitions have a
first one, so the offset is constant long enough ago; that is the only thing
asked of it.

Contract: `exists_shown`, an instant at which the clock shows a given time and
`time.Date` finds that very instant.
-/

namespace DbBackup.Lib.Zone

open Lib.Time

structure Location where
  /-- Seconds east of UTC at the given second. -/
  offsetAt : Int → Int
  early : ∃ first offset, ∀ sec < first, offsetAt sec = offset

/-- `time.FixedZone`. -/
def fixedZone (offset : Int) : Location where
  offsetAt := fun _ => offset
  early := ⟨0, offset, fun _ _ => rfl⟩

/-- The second an instant lies in, given in nanoseconds. -/
def unixSecond (nanos : Int) : Int := nanos / second

/-- What the clock shows, in seconds. -/
def Location.localSecond (loc : Location) (nanos : Int) : Int :=
  unixSecond nanos + loc.offsetAt (unixSecond nanos)

def Location.localDay (loc : Location) (nanos : Int) : Int := loc.localSecond nanos / 86400

/-- `Hour()*60 + Minute()`. -/
def Location.minuteOfDay (loc : Location) (nanos : Int) : Int :=
  loc.localSecond nanos % 86400 / 60

def Location.clockHour (loc : Location) (nanos : Int) : Int := loc.localSecond nanos % 86400 / 3600

def Location.clockMinute (loc : Location) (nanos : Int) : Int := loc.localSecond nanos % 3600 / 60

/-- `Year()`, `Month()` and `Day()`. -/
def Location.civil (loc : Location) (nanos : Int) : Int × Int × Int :=
  civilFromDays (loc.localDay nanos)

/-- `Weekday()`, Sunday being 0; the epoch was a Thursday. -/
def Location.weekday (loc : Location) (nanos : Int) : Int := (loc.localDay nanos + 4) % 7

/-- The second at which the clock shows `wall`: the offset is looked up at the
wall time taken as UTC, and once more at the second this gives. -/
def Location.unixOf (loc : Location) (wall : Int) : Int :=
  wall - loc.offsetAt (wall - loc.offsetAt wall)

/-- `time.Date(now.Year(), now.Month(), now.Day(), hours, minutes, 0, 0,
now.Location())`. -/
def Location.dateOn (loc : Location) (now hours minutes : Int) : Int :=
  let (year, month, day) := loc.civil now
  loc.unixOf (daysFromCivil year month day * 86400 + hours * 3600 + minutes * 60) * second

theorem Location.dateOn_eq (loc : Location) (now hours minutes : Int) :
    loc.dateOn now hours minutes =
      loc.unixOf (loc.localDay now * 86400 + hours * 3600 + minutes * 60) * second := by
  unfold Location.dateOn Location.civil
  simp only [daysFromCivil_civilFromDays]

/-- Long enough ago the clock shows every time of a day exactly once. -/
theorem Location.exists_shown (loc : Location) {time : Int} (low : 0 ≤ time) (high : time < 86400) :
    ∃ now, loc.localDay now * 86400 + time = loc.localSecond now ∧
      ∀ days, days ≤ 0 →
        loc.unixOf ((loc.localDay now + days) * 86400 + time) * second = now + days * day := by
  obtain ⟨first, offset, constant⟩ := loc.early
  have farBack : ∃ date : Int, date * 86400 + 86400 < first ∧
      date * 86400 + 86400 - offset < first :=
    ⟨(min first (first + offset) - 86400) / 86400 - 1, by omega⟩
  obtain ⟨date, beforeWall, beforeUnix⟩ := farBack
  have shownSecond : unixSecond ((date * 86400 + time - offset) * second) =
      date * 86400 + time - offset := by
    unfold unixSecond second
    omega
  have isLocal : loc.localSecond ((date * 86400 + time - offset) * second) =
      date * 86400 + time := by
    unfold Location.localSecond
    rw [shownSecond, constant _ (by omega)]
    omega
  have isDay : loc.localDay ((date * 86400 + time - offset) * second) = date := by
    unfold Location.localDay
    rw [isLocal]
    omega
  refine ⟨(date * 86400 + time - offset) * second, by rw [isDay, isLocal], ?_⟩
  intro days notLater
  unfold Location.unixOf
  rw [isDay, constant ((date + days) * 86400 + time) (by omega), constant _ (by omega)]
  unfold day hour minute second
  omega

end DbBackup.Lib.Zone
