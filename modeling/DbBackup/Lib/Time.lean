import Mathlib.Algebra.Ring.Int.Defs
import Mathlib.Algebra.Ring.Nat

/-!
Owns the instants of Go's `time` package: comparison, the civil calendar of a
zone with a fixed offset, ISO weeks, `Format` for the layout of file names, and
`time.Parse` for the two layouts the development reads (`20060102-150405` and
RFC 3339).

An instant is a nanosecond count since the Unix epoch with the offset of the
zone it is shown in. Comparison reads the count only, as `Before`, `After` and
`Equal` do; the calendar reads both.
-/

set_option linter.all false

namespace DbBackup.Lib.Time

def second : Int := 1000000000

def minute : Int := 60 * second

def hour : Int := 60 * minute

def day : Int := 24 * hour

/-- `time.Time` in a zone with a fixed offset (seconds east of UTC). -/
structure Instant where
  nanos : Int
  offset : Int := 0
deriving DecidableEq

/-- The zero `time.Time`: 1 January of year 1, UTC. -/
def Instant.zero : Instant := { nanos := -62135596800 * second }

def Instant.isZero (t : Instant) : Bool := t.nanos = Instant.zero.nanos

def Instant.before (t u : Instant) : Bool := t.nanos < u.nanos

def Instant.after (t u : Instant) : Bool := u.nanos < t.nanos

def Instant.add (t : Instant) (duration : Int) : Instant :=
  { t with nanos := t.nanos + duration }

/-- `Truncate`: down to a multiple of `step`. The zero time is a whole number
of hours before the epoch, so for whole hours the grid is that of the epoch. -/
def Instant.truncate (t : Instant) (step : Int) : Instant :=
  { t with nanos := t.nanos / step * step }

/-! ### The civil calendar -/

def daysFromCivil (year month date : Int) : Int :=
  let shifted := if month ≤ 2 then year - 1 else year
  let era := shifted / 400
  let yearOfEra := shifted - era * 400
  let monthIndex := if 2 < month then month - 3 else month + 9
  let dayOfYear := (153 * monthIndex + 2) / 5 + date - 1
  let dayOfEra := yearOfEra * 365 + yearOfEra / 4 - yearOfEra / 100 + dayOfYear
  era * 146097 + dayOfEra - 719468

def civilFromDays (days : Int) : Int × Int × Int :=
  let shifted := days + 719468
  let era := shifted / 146097
  let dayOfEra := shifted - era * 146097
  let yearOfEra :=
    (dayOfEra - dayOfEra / 1460 + dayOfEra / 36524 - dayOfEra / 146096) / 365
  let dayOfYear := dayOfEra - (365 * yearOfEra + yearOfEra / 4 - yearOfEra / 100)
  let monthIndex := (5 * dayOfYear + 2) / 153
  let date := dayOfYear - (153 * monthIndex + 2) / 5 + 1
  let month := if monthIndex < 10 then monthIndex + 3 else monthIndex - 9
  let year := yearOfEra + era * 400 + if month ≤ 2 then 1 else 0
  (year, month, date)

def Instant.localSeconds (t : Instant) : Int := t.nanos / second + t.offset

def Instant.localDays (t : Instant) : Int := t.localSeconds / 86400

def Instant.date (t : Instant) : Int × Int × Int := civilFromDays t.localDays

def Instant.year (t : Instant) : Int := t.date.1

def Instant.month (t : Instant) : Int := t.date.2.1

def Instant.dayOfMonth (t : Instant) : Int := t.date.2.2

def Instant.clockHour (t : Instant) : Int := t.localSeconds % 86400 / 3600

/-- `ISOWeek`: the year and week of the Thursday in the instant's week. -/
def Instant.isoWeek (t : Instant) : Int × Int :=
  let weekday := (t.localDays + 3) % 7
  let thursday := t.localDays - weekday + 3
  let year := (civilFromDays thursday).1
  (year, (thursday - daysFromCivil year 1 1) / 7 + 1)

def Instant.clockMinute (t : Instant) : Int := t.localSeconds % 3600 / 60

def Instant.clockSecond (t : Instant) : Int := t.localSeconds % 60

/-! ### Formatting -/

/-- The last `width` decimal digits of a number. -/
def padDigits : Nat → Nat → List Char
  | 0, _ => []
  | width + 1, value => padDigits width (value / 10) ++ [Nat.digitChar (value % 10)]

/-- `appendInt`: zero-padded to `width`, longer where the number needs it. -/
def appendInt (value : Int) (width : Nat) : List Char :=
  let digits :=
    if value.natAbs < 10 ^ width then padDigits width value.natAbs
    else Nat.toDigits 10 value.natAbs
  if value < 0 then '-' :: digits else digits

/-- `t.Format("20060102-150405")`. -/
def formatCompact (t : Instant) : String :=
  String.ofList (appendInt t.year 4 ++ appendInt t.month 2 ++ appendInt t.dayOfMonth 2 ++ '-' ::
    (appendInt t.clockHour 2 ++ appendInt t.clockMinute 2 ++ appendInt t.clockSecond 2))

/-! ### Parsing -/

def isLeap (year : Nat) : Bool :=
  year % 4 = 0 && (year % 100 ≠ 0 || year % 400 = 0)

def daysIn (year month : Nat) : Nat :=
  if month = 2 then (if isLeap year then 29 else 28)
  else if month = 4 ∨ month = 6 ∨ month = 9 ∨ month = 11 then 30
  else 31

def digitValue (c : Char) : Option Nat :=
  if '0' ≤ c ∧ c ≤ '9' then some (c.toNat - '0'.toNat) else none

def takeDigits : Nat → Nat → List Char → Option (Nat × List Char)
  | 0, value, rest => some (value, rest)
  | _ + 1, _, [] => none
  | count + 1, value, head :: rest =>
    match digitValue head with
    | some digit => takeDigits count (10 * value + digit) rest
    | none => none

/-- The hour field of `time.Parse`: two digits, or one before a non-digit. -/
def takeHour (text : List Char) : Option (Nat × List Char) :=
  match takeDigits 2 0 text with
  | some parsed => some parsed
  | none => takeDigits 1 0 text

def takeChar (expected : Char) : List Char → Option (List Char)
  | [] => none
  | head :: rest => if head = expected then some rest else none

/-- Fractional seconds, which `time.Parse` accepts after any seconds field. -/
def takeFraction (text : List Char) : Nat × List Char :=
  match text with
  | mark :: first :: rest =>
    if (mark = '.' ∨ mark = ',') ∧ (digitValue first).isSome then
      let digits := (first :: rest).takeWhile fun c => (digitValue c).isSome
      let kept := digits.take 9
      let value := kept.foldl (fun value c => 10 * value + (digitValue c).getD 0) 0
      (value * 10 ^ (9 - kept.length), (first :: rest).drop digits.length)
    else (0, text)
  | _ => (0, text)

def makeInstant (year month date hours minutes seconds nanos : Nat) (offset : Int) :
    Option Instant :=
  if 1 ≤ month ∧ month ≤ 12 ∧ 1 ≤ date ∧ date ≤ daysIn year month ∧
      hours < 24 ∧ minutes < 60 ∧ seconds < 60 then
    let wall := daysFromCivil year month date * 86400 + hours * 3600 + minutes * 60 + seconds
    some { nanos := (wall - offset) * second + nanos, offset := offset }
  else none

def parseCompact (text : String) : Option Instant := do
  let (year, rest) ← takeDigits 4 0 text.toList
  let (month, rest) ← takeDigits 2 0 rest
  let (date, rest) ← takeDigits 2 0 rest
  let rest ← takeChar '-' rest
  let (hours, rest) ← takeHour rest
  let (minutes, rest) ← takeDigits 2 0 rest
  let (seconds, rest) ← takeDigits 2 0 rest
  let (nanos, rest) := takeFraction rest
  if rest = [] then makeInstant year month date hours minutes seconds nanos 0 else none

def takeZone : List Char → Option (Int × List Char)
  | 'Z' :: rest => some (0, rest)
  | sign :: rest => do
      let (hours, rest) ← takeDigits 2 0 rest
      let rest ← takeChar ':' rest
      let (minutes, rest) ← takeDigits 2 0 rest
      if 24 < hours ∨ 60 < minutes then none
      else if sign = '+' then some ((hours * 3600 + minutes * 60 : Int), rest)
      else if sign = '-' then some (-(hours * 3600 + minutes * 60 : Int), rest)
      else none
  | [] => none

def parseRFC3339 (text : String) : Option Instant := do
  let (year, rest) ← takeDigits 4 0 text.toList
  let rest ← takeChar '-' rest
  let (month, rest) ← takeDigits 2 0 rest
  let rest ← takeChar '-' rest
  let (date, rest) ← takeDigits 2 0 rest
  let rest ← takeChar 'T' rest
  let (hours, rest) ← takeHour rest
  let rest ← takeChar ':' rest
  let (minutes, rest) ← takeDigits 2 0 rest
  let rest ← takeChar ':' rest
  let (seconds, rest) ← takeDigits 2 0 rest
  let (nanos, rest) := takeFraction rest
  let (offset, rest) ← takeZone rest
  if rest = [] then makeInstant year month date hours minutes seconds nanos offset else none

end DbBackup.Lib.Time
