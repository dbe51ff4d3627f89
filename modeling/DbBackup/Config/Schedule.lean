import DbBackup.Lib.Delimited
import DbBackup.Lib.Scan
import Mathlib.Data.List.Sort

/-!
Owns the schedule of a job and the checks on its parts: clock times, day lists,
cron expressions and the limits of the community edition
(`internal/config/schedule.go`, `supported/config/days.go`).

Contract: `mem_parseTimes` for the range of the times a list is read to.

Does not own phrases in natural language or the forms a schedule is loaded
from.
-/

set_option linter.all false

namespace DbBackup.Config

open Lib.Delimited Lib.GoString Lib.Scan

/-! ### The data -/

structure DayList where
  weekdays : List Nat := []
  dom : List Int := []
deriving DecidableEq

def DayList.isEmpty (days : DayList) : Bool := days.weekdays.isEmpty && days.dom.isEmpty

structure Blackout where
  beginAt : String := ""
  endAt : String := ""
  days : DayList := {}
deriving DecidableEq

structure Schedule where
  cron : String := ""
  interval : Int := 0
  beginAt : String := ""
  /-- Minutes of the day. -/
  time : List Int := []
  start : String := ""
  recurring : String := ""
  blackout : Option (List Blackout) := none
  days : DayList := {}
  excludeDays : DayList := {}
deriving DecidableEq

def Schedule.isRecurring (s : Schedule) : Bool :=
  if s.recurring ≠ "" then true else s.cron ≠ "" || 0 < s.interval || s.time ≠ []

inductive CronFieldError where
  | emptyField
  | invalidCharacter (c : Char)
  | badListElement (field : String)
  | missingStep (atom : String)
  | badStep (atom : String)
  | badStepBase (atom : String)
  | stepBaseRange (start min max : Int)
  | badRange (atom : String)
  | rangeBounds (low high min max : Int)
  | invalidValue (atom : String)
  | valueRange (value min max : Int)
deriving DecidableEq

inductive ScheduleError where
  | cronQuotes (expr : String)
  | cronFields (expr : String) (count : Nat)
  | cronField (expr : String) (index : Nat) (name field : String) (error : CronFieldError)
  | invalidTime (token : String)
  | dayOfMonth (value : Int)
  | invalidDay (token : String)
  | daysNeedLicense
  | excludeDaysNeedLicense
  | blackoutDaysNeedLicense
  | startNeedsLicense (start recurring : String)
  | phraseNeedsLicense (phrase : String)
  | beginQuotes (text : String)
  | beginMinutes (text : String)
  | beginClock (text : String)
  | beginInvalid (text : String)
  | cannotParse (text : String)
  | cannotParseRecurring (text : String)
  | notAMapping
deriving DecidableEq

/-! ### Strings -/

/-- `strings.Split(text, sep)` for one character. -/
def splitChar (sep : Char) (text : String) : List String :=
  (text.toList.splitOn sep).map String.ofList

/-- `strings.Fields`. -/
def fields (text : String) : List String :=
  ((text.toList.splitOnP isSpace).filter (· ≠ [])).map String.ofList

/-- `strings.SplitN(text, sep, 2)` for one character. -/
def cut (sep : Char) (text : String) : String × Option String :=
  let before := text.toList.takeWhile (· ≠ sep)
  match text.toList.drop before.length with
  | [] => (text, none)
  | _ :: after => (String.ofList before, some (String.ofList after))

variable {sep : Char}

/-- A text with the separator is cut at the first one. -/
theorem cut_of_mem {text : String} (member : sep ∈ text.toList) :
    ∃ before after : String, cut sep text = (before, some after) ∧
      text.toList = before.toList ++ sep :: after.toList ∧ sep ∉ before.toList := by
  have noSep : sep ∉ text.toList.takeWhile (· ≠ sep) := by
    intro inside
    simpa using List.mem_takeWhile_imp inside
  obtain ⟨after, rest⟩ : ∃ after, text.toList.dropWhile (· ≠ sep) = sep :: after := by
    cases dropped : text.toList.dropWhile (· ≠ sep) with
    | nil =>
      have whole := List.takeWhile_append_dropWhile (p := (· ≠ sep)) (l := text.toList)
      rw [dropped, List.append_nil] at whole
      rw [whole] at noSep
      exact absurd member noSep
    | cons head tail =>
      have isSep := List.head?_dropWhile_not (· ≠ sep) text.toList
      rw [dropped] at isSep
      have same : head = sep := by simpa using isSep
      exact ⟨tail, by rw [same]⟩
  have shape : text.toList = text.toList.takeWhile (· ≠ sep) ++ sep :: after := by
    rw [← rest, List.takeWhile_append_dropWhile]
  refine ⟨String.ofList (text.toList.takeWhile (· ≠ sep)), String.ofList after, ?_, ?_, ?_⟩
  · have dropped : text.toList.drop (text.toList.takeWhile (· ≠ sep)).length = sep :: after := by
      calc _ = (text.toList.takeWhile (· ≠ sep) ++ text.toList.dropWhile (· ≠ sep)).drop
            (text.toList.takeWhile (· ≠ sep)).length := by rw [List.takeWhile_append_dropWhile]
        _ = text.toList.dropWhile (· ≠ sep) := List.drop_left
        _ = sep :: after := rest
    unfold cut
    simp only [dropped]
  · rw [String.toList_ofList, String.toList_ofList]
    exact shape
  · rwa [String.toList_ofList]

theorem fields_eq (text : String) : fields text = (words isSpace text.toList).map String.ofList := by
  unfold fields words
  congr 1
  apply List.filter_congr
  intro part _
  cases part <;> simp

theorem fields_intercalate (tokens : List String) :
    fields (" ".intercalate tokens) = tokens.flatMap fields := by
  induction tokens with
  | nil => rfl
  | cons token rest ih =>
    cases rest with
    | nil => simp
    | cons next others =>
      have blank : " ".toList = [' '] := rfl
      rw [List.flatMap_cons, ← ih, String.intercalate_cons_cons, fields_eq,
        String.toList_append, String.toList_append, blank, List.append_assoc,
        List.singleton_append, words_append_cons _ _ (by decide), List.map_append, ← fields_eq,
        ← fields_eq]

theorem splitChar_intercalate {joiner : String} (shape : joiner.toList = [sep])
    {parts : List String} (free : ∀ part ∈ parts, sep ∉ part.toList) (notEmpty : parts ≠ []) :
    splitChar sep (joiner.intercalate parts) = parts := by
  unfold splitChar
  rw [String.toList_intercalate, shape, List.splitOn_intercalate, List.map_map]
  · have same : (String.ofList ∘ String.toList) = id := by
      funext text
      exact String.ofList_toList
    rw [same, List.map_id]
  · intro chars member
    obtain ⟨part, inParts, rfl⟩ := List.mem_map.mp member
    exact free part inParts
  · simpa using notEmpty

theorem splitChar_append_of_not_mem {start rest first : String} {others : List String}
    (absent : sep ∉ start.toList) (parts : splitChar sep rest = first :: others) :
    splitChar sep (start ++ rest) = (start ++ first) :: others := by
  unfold splitChar at parts ⊢
  obtain ⟨head, tail, isSplit, rfl, rfl⟩ := List.map_eq_cons_iff.mp parts
  have none : ∀ c ∈ start.toList, (c == sep) = false := by
    intro c member
    rw [beq_eq_false_iff_ne]
    rintro rfl
    exact absent member
  rw [String.toList_append, List.splitOn_eq_splitOnP, splitOnP_append_of_none none isSplit,
    List.map_cons, String.ofList_append, String.ofList_toList]

def hasQuote (text : String) : Bool := text.toList.any fun c => c = '"' || c = '\''

def hasChar (c : Char) (text : String) : Bool := text.toList.contains c

/-- `strings.ToLower`, as far as ASCII letters in the result go: outside ASCII
only the dotted I and the Kelvin sign become one. -/
def lowerText (text : String) : String :=
  String.ofList (text.toList.map fun c =>
    if c = '\u0130' then 'i' else if c = '\u212a' then 'k' else c.toLower)

def allDigits (s : String) : Bool := s.toList.all Char.isDigit && s ≠ ""

/-! ### Clock times -/

/-- The byte `s[i]`. -/
def byteAt (s : String) (i : Nat) : Option UInt8 := s.toUTF8.data.toList[i]?

def parseClock (s : String) : Option Int :=
  let scanned :=
    if s.utf8ByteSize = 4 then some (scanPair [] s)
    else if s.utf8ByteSize = 5 ∧ byteAt s 2 = some 58 then some (scanPair [':'] s)
    else none
  match scanned with
  | some (h, m, true) => if h < 0 ∨ 23 < h ∨ m < 0 ∨ 59 < m then none else some (h * 60 + m)
  | _ => none

def clockTokens (s : String) : List String := (splitChar ',' s).map trimSpace

def isTimeList (s : String) : Bool :=
  (clockTokens s).all fun tok => tok ≠ "" && (parseClock tok).isSome

/-- `TimeList.parse`: the times are added to the list, which is sorted. -/
def parseTimes (times : List Int) (s : String) : Except ScheduleError (List Int) := do
  let read ← ((clockTokens s).filter (· ≠ "")).mapM fun tok =>
    match parseClock tok with
    | some m => .ok m
    | none => .error (.invalidTime tok)
  return (times ++ read).mergeSort (· ≤ ·)

/-! ### Days -/

def dayNames : List String :=
  ["sunday", "monday", "tuesday", "wednesday", "thursday", "friday", "saturday"]

/-- `weekdayAliases`. -/
def parseWeekday (tok : String) : Option (List Nat) :=
  let tok := lowerText tok
  if tok = "thur" then some [4]
  else if tok = "tues" then some [2]
  else if tok = "weekdays" then some [1, 2, 3, 4, 5]
  else if tok = "weekend" then some [6, 0]
  else if tok = "all" ∨ tok = "any" then some [0, 1, 2, 3, 4, 5, 6]
  else (dayNames.findIdx? fun name =>
    tok = name || tok = String.ofList (name.toList.take 3) || tok = trimSuffix name "day").map
      fun day => [day]

def parseDayToken (data : DayList) (tok : String) : Except ScheduleError DayList :=
  match atoi? tok with
  | some n => if n < 1 ∨ 31 < n then .error (.dayOfMonth n) else .ok { data with dom := data.dom ++ [n] }
  | none =>
    match parseWeekday tok with
    | some days => .ok { data with weekdays := data.weekdays ++ days }
    | none => .error (.invalidDay tok)

def parseDayList (s : String) : Except ScheduleError DayList :=
  (((splitChar ',' s).map trimSpace).filter (· ≠ "")).foldlM parseDayToken {}

/-! ### Cron expressions -/

def parseRange (s : String) : Option (Int × Int) :=
  match cut '-' s with
  | (low, some high) =>
    match atoi? low, atoi? high with
    | some a, some b => some (a, b)
    | _, _ => none
  | (_, none) => none

def validateStep (atom : String) (min max : Int) : Except CronFieldError Unit :=
  let (base, step) := cut '/' atom
  if step.getD "" = "" then .error (.missingStep atom)
  else
    match atoi? (step.getD "") with
    | none => .error (.badStep atom)
    | some step =>
      if step ≤ 0 then .error (.badStep atom)
      else if base = "*" then .ok ()
      else
        match atoi? base with
        | none => .error (.badStepBase atom)
        | some start =>
          if start < min ∨ max < start then .error (.stepBaseRange start min max) else .ok ()

def validateCronAtom (atom : String) (min max : Int) : Except CronFieldError Unit :=
  if hasChar '/' atom then validateStep atom min max
  else if hasChar '-' atom then
    match parseRange atom with
    | none => .error (.badRange atom)
    | some (a, b) =>
      if a < min ∨ max < b ∨ b < a then .error (.rangeBounds a b min max) else .ok ()
  else
    match atoi? atom with
    | none => .error (.invalidValue atom)
    | some n => if n < min ∨ max < n then .error (.valueRange n min max) else .ok ()

def isCronChar (c : Char) : Bool := c.isDigit || c = '*' || c = ',' || c = '-' || c = '/'

def validateCronField (field : String) (min max : Int) : Except CronFieldError Unit :=
  if field = "" then .error .emptyField
  else
    match field.toList.find? fun c => !isCronChar c with
    | some c => .error (.invalidCharacter c)
    | none =>
      if field = "*" then .ok ()
      else if hasChar ',' field then
        (splitChar ',' field).forM fun p =>
          if p = "" then .error (.badListElement field) else validateCronAtom p min max
      else validateCronAtom field min max

def cronBounds : List (String × Int × Int) :=
  [("minute", 0, 59), ("hour", 0, 23), ("day", 1, 31), ("month", 1, 12), ("weekday", 0, 6)]

def validateCron (expr : String) : Except ScheduleError Unit :=
  let parts := fields expr
  if hasQuote expr then .error (.cronQuotes expr)
  else if parts.length ≠ 5 then .error (.cronFields expr parts.length)
  else
    ((parts.zip cronBounds).zipIdx 1).forM fun ((field, name, min, max), index) =>
      (validateCronField field min max).mapError (.cronField expr index name field)

/-! ### The community edition -/

def communityScheduleLimits (s : Schedule) : Except ScheduleError Schedule :=
  if s.start ≠ "" ∧ s.recurring ≠ "" then .error (.startNeedsLicense s.start s.recurring)
  else if s.days.isEmpty = false then .error .daysNeedLicense
  else if s.excludeDays.isEmpty = false then .error .excludeDaysNeedLicense
  else if (s.blackout.getD []).any fun b => !b.days.isEmpty then .error .blackoutDaysNeedLicense
  else .ok { s with time := s.time.take 1 }

end DbBackup.Config
