import DbBackup.Config.Schedule
import DbBackup.Lib.Backtrack

/-!
Owns schedules in natural language: `ParseNL` of `supported/config/nl.go` and
`looksLikeNL` of `internal/config/schedule.go`.

A phrase is read for facts (an offset, an interval, a time, days), and the
facts are turned into a schedule. Contract: a time is read to a cron
expression (`timeSchedule_cron`).
-/

set_option linter.all false

namespace DbBackup.Config

open Lib.Backtrack Lib.Duration Lib.GoString Lib.Scan

/-! ### Facts -/

/-- `word\s+(\d+)\s+unit`. -/
def countPattern (word unit : String) : Matcher String := do
  literal word
  let _ ← someOf isBlank
  let count ← someDigits
  let _ ← someOf isBlank
  literal unit
  return count

/-- The count of a match, in minutes; a count out of range is the largest. -/
def countMinutes (found : Option String) (minutes : Int) : Option Int :=
  found.map fun count => wrap64 ((atoi count).1 * minutes)

def nlBegin (phrase : String) : Option Int :=
  let plus := if hasPrefix phrase "+" then
      (atoi? (trimPrefix phrase "+")).filter fun n => 0 < n
    else none
  plus <|> countMinutes (findWordSubmatch (countPattern "after" "hour") phrase) 60 <|>
    countMinutes (findWordSubmatch (countPattern "in" "minute") phrase) 1

/-- The fact that comes later in the source overrides the one before. -/
def nlInterval (phrase : String) : Option Int :=
  (if contains phrase "every day" then some 1440 else none) <|>
    (if contains phrase "every hour" then some 60 else none) <|>
    (if contains phrase "every minute" then some 1 else none) <|>
    countMinutes (findSubmatch (countPattern "every" "day") phrase) 1440 <|>
    countMinutes (findSubmatch (countPattern "every" "hour") phrase) 60 <|>
    countMinutes (findSubmatch (countPattern "every" "minute") phrase) 1

/-- `(\d{1,2}):(\d{2})\s*(am|pm)?`. -/
def clockPattern : Matcher (String × String × Option String) := do
  let h ← between Char.isDigit 1 2
  literal ":"
  let m ← digits 2
  let _ ← manyOf isBlank
  let meridiem ← optional (oneOf ["am", "pm"])
  return (h, m, meridiem)

/-- `(\d{1,2})\s*(am|pm)`. -/
def hourPattern : Matcher (String × String) := do
  let h ← between Char.isDigit 1 2
  let _ ← manyOf isBlank
  let meridiem ← oneOf ["am", "pm"]
  return (h, meridiem)

/-- Nothing, where no word goes on: the second `\b` after digits. -/
def wordEnd : Matcher Unit :=
  ⟨fun text => if text.head?.any isWordChar then [] else [((), text)]⟩

/-- `(\d{3,4})\b`. -/
def compactPattern : Matcher String := do
  let v ← between Char.isDigit 3 4
  wordEnd
  return v

def meridiemHour (h : Int) (meridiem : String) : Int :=
  if meridiem = "pm" ∧ h < 12 then h + 12 else if meridiem = "am" ∧ h = 12 then 0 else h

def compactTime (v : String) : Option Int :=
  let h := (atoi (String.ofList (v.toList.take 2))).1
  let m := (atoi (String.ofList (v.toList.drop 2))).1
  if v.toList.length = 4 ∧ h ≤ 23 ∧ m ≤ 59 then some (h * 60 + m) else none

def nlClock (phrase : String) : Option Int :=
  match findSubmatch clockPattern phrase with
  | some (h, m, meridiem) =>
    some (meridiemHour (atoi h).1 (meridiem.getD "") * 60 + (atoi m).1)
  | none =>
    match findSubmatch hourPattern phrase with
    | some (h, meridiem) => some (meridiemHour (atoi h).1 meridiem * 60)
    | none => (findWordSubmatch compactPattern phrase).bind compactTime

def nlTime (phrase : String) : Option Int :=
  nlClock phrase <|> (if contains phrase "noon" then some (12 * 60) else none) <|>
    (if contains phrase "midnight" then some 0 else none)

def dayNamed (phrase name : String) : Bool :=
  let short := String.ofList (name.toList.take 3)
  let stem := trimSuffix name "day"
  contains phrase name || contains phrase (stem ++ "s") || contains phrase short ||
    ((splitChar ',' phrase).map trimSpace).any fun part => part = short || part = name || part = stem

def nlDays (phrase : String) : List Nat :=
  if contains phrase "weekend" then [0, 6]
  else if contains phrase "weekday" then [1, 2, 3, 4, 5]
  else (List.range 7).filter fun day => dayNamed phrase (dayNames.getD day "")

def dailyHint (phrase : String) : Bool :=
  contains phrase "daily" || contains phrase "nightly" || contains phrase "every day"

structure NlResult where
  beginMin : Int
  intervalMin : Int
  time : Option Int
  days : List Nat
  daily : Bool
deriving DecidableEq

/-- What the phrase says; `none` where it says nothing. -/
def nlFacts (phrase : String) : Option NlResult :=
  let facts : NlResult := {
    beginMin := (nlBegin phrase).getD 0
    intervalMin := (nlInterval phrase).getD 0
    time := nlTime phrase
    days := nlDays phrase
    daily := dailyHint phrase }
  if (nlBegin phrase).isSome || (nlInterval phrase).isSome || facts.time.isSome ||
      facts.days ≠ [] then some facts
  else none

/-! ### The schedule -/

def dailyCron (hh mm : Int) : String := toString mm ++ " " ++ toString hh ++ " * * *"

def buildCron (hh mm : Int) (days : List Nat) : String :=
  toString mm ++ " " ++ toString hh ++ " * * " ++ ",".intercalate (days.map toString)

/-- From `hh` on in steps, up to the end of the day. -/
def hoursFrom (hh stepH : Int) : List Int :=
  ((List.range 24).map fun (k : Nat) => hh + k * stepH).takeWhile (· < 24)

def steppedCron (hh mm stepH : Int) : String :=
  toString mm ++ " " ++ ",".intercalate ((hoursFrom hh stepH).map toString) ++ " * * *"

/-- An offset with a recurrence: the recurrence stays text. -/
def startSchedule (facts : NlResult) : Schedule :=
  let start := "+" ++ toString facts.beginMin
  match facts.time with
  | some time =>
    let hh := time.tdiv 60
    let mm := time.tmod 60
    { start, recurring := if facts.days ≠ [] then buildCron hh mm facts.days else dailyCron hh mm }
  | none =>
    if 0 < facts.intervalMin then { start, recurring := toString facts.intervalMin }
    else { start, recurring := buildCron 0 0 facts.days }

def timeSchedule (facts : NlResult) (time : Int) : Schedule :=
  let hh := time.tdiv 60
  let mm := time.tmod 60
  let cron :=
    if facts.days ≠ [] then buildCron hh mm facts.days
    else if 0 < facts.intervalMin ∧ facts.intervalMin.tmod 60 = 0 then
      steppedCron hh mm (facts.intervalMin.tdiv 60)
    else dailyCron hh mm
  { time := [time], cron }

def nlSchedule (facts : NlResult) : Option Schedule :=
  if 0 < facts.beginMin ∧ (facts.time.isSome ∨ facts.days ≠ [] ∨ 0 < facts.intervalMin) then
    some (startSchedule facts)
  else if 0 < facts.beginMin then some { beginAt := "+" ++ toString facts.beginMin }
  else
    match facts.time with
    | some time => some (timeSchedule facts time)
    | none =>
      if 0 < facts.intervalMin then some { interval := facts.intervalMin }
      else if facts.days ≠ [] then some { cron := buildCron 0 0 facts.days }
      else if facts.daily then some { cron := "0 0 * * *" }
      else none

def parseNL (phrase : String) : Option Schedule :=
  (nlFacts (lowerText (trimSpace phrase))).bind nlSchedule

theorem dailyCron_ne_empty (hh mm : Int) : dailyCron hh mm ≠ "" := by
  intro isEmpty
  have chars := congrArg String.toList isEmpty
  simp [dailyCron] at chars

theorem buildCron_ne_empty (hh mm : Int) (days : List Nat) : buildCron hh mm days ≠ "" := by
  intro isEmpty
  have chars := congrArg String.toList isEmpty
  simp [buildCron] at chars

/-- A time of a phrase comes with a cron expression. -/
theorem timeSchedule_cron (facts : NlResult) (time : Int) : (timeSchedule facts time).cron ≠ "" := by
  unfold timeSchedule
  simp only
  split
  · exact buildCron_ne_empty _ _ _
  · split
    · intro isEmpty
      have chars := congrArg String.toList isEmpty
      simp [steppedCron] at chars
    · exact dailyCron_ne_empty _ _

/-- The words and word parts `looksLikeNL` takes for natural language. -/
def phraseSignals : List String :=
  ["every", "at ", "am", "pm", "daily", "nightly", "then ", " minute", " minutes", " hour", " hours",
    " midnight", " noon", "after ", "monday", "tuesday", "wednesday", "thursday", "friday",
    "saturday", "sunday", "weekday", "weekend"]

def looksLikeNL (phrase : String) : Bool :=
  let p := lowerText (trimSpace phrase)
  contains p " " && phraseSignals.any (contains p)

end DbBackup.Config
