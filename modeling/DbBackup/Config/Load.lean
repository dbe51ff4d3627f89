import DbBackup.Config.Phrase

/-!
Owns how a schedule is loaded: the forms a YAML node can have, `parseString`,
`UnmarshalYAML`, `Validate`, and the check of the job that holds the schedule
(`internal/config/schedule.go`, `internal/config/jobs.go`,
`supported/config/schedule.go`).

Contract: `Accepted` is what loading returns, and `accepted_spec` what every
accepted schedule keeps.

Does not own YAML itself: a node is what the decoder makes of the text, and a
mapping holds well-typed values.
-/

set_option linter.all false

namespace DbBackup.Config

open Lib.GoString Lib.Scan

/-- The build, and whether the licence allows schedules. -/
inductive Edition where
  | community
  | supporter (licensed : Bool)
deriving DecidableEq

/-! ### Hooks of the edition -/

def supporterSchedule (edition : Edition) (s : Schedule) : Except ScheduleError Schedule :=
  match edition with
  | .supporter true => .ok s
  | _ => communityScheduleLimits s

def supporterParseNL (edition : Edition) (phrase : String) :
    Except ScheduleError (Option Schedule) :=
  match edition with
  | .community => if looksLikeNL phrase then .error (.phraseNeedsLicense phrase) else .ok none
  | .supporter false => .error (.phraseNeedsLicense phrase)
  | .supporter true => .ok (parseNL phrase)

def supporterParseDayList (edition : Edition) (s : String) : Except ScheduleError DayList :=
  match edition with
  | .community => .error .daysNeedLicense
  | .supporter _ => parseDayList s

/-! ### Strings -/

/-- The loop of `UnquoteScheduleValue`; every round shortens the text. -/
def unquoteLoop : Nat → List Char → List Char
  | 0, text => text
  | fuel + 1, text =>
    if 2 ≤ text.length ∧ (text.head? = some '"' ∨ text.head? = some '\'') ∧
        text.getLast? = text.head? then
      unquoteLoop fuel (trimSpace (String.ofList (text.drop 1).dropLast)).toList
    else text

/-- `UnquoteScheduleValue`; the text is kept where nothing was stripped. -/
def unquoteScheduleValue (s : String) : String :=
  let trimmed := (trimSpace s).toList
  let cleaned := unquoteLoop trimmed.length trimmed
  if cleaned = trimmed then s else String.ofList cleaned

def parseTimeString (edition : Edition) (str : String) : Except ScheduleError Schedule := do
  supporterSchedule edition { time := ← parseTimes [] str }

def parseCronString (edition : Edition) (str : String) : Except ScheduleError Schedule := do
  validateCron str
  supporterSchedule edition { cron := str }

def parseString (edition : Edition) (value : String) : Except ScheduleError Schedule :=
  let str := unquoteScheduleValue value
  if hasPrefix str "+" then supporterSchedule edition { beginAt := str }
  else if str.utf8ByteSize = 4 ∧ allDigits str = true then parseTimeString edition str
  else if isTimeList str then parseTimeString edition str
  else if hasChar '*' str then parseCronString edition str
  else if allDigits str then supporterSchedule edition { interval := (atoi str).1 }
  else
    match supporterParseNL edition str with
    | .error error => .error error
    | .ok (some s) => supporterSchedule edition s
    | .ok none =>
      if hasChar ' ' str then parseCronString edition str else .error (.cannotParse str)

/-! ### Nodes -/

inductive TextList where
  | scalar (text : String)
  | sequence (texts : List String)
deriving DecidableEq

def TextList.texts : TextList → List String
  | .scalar text => [text]
  | .sequence texts => texts

structure BlackoutNode where
  beginAt : String := ""
  endAt : String := ""
  days : Option TextList := none
deriving DecidableEq

structure ScheduleMapping where
  cron : String := ""
  interval : Int := 0
  beginAt : String := ""
  time : Option TextList := none
  start : String := ""
  recurring : String := ""
  blackout : Option (List BlackoutNode) := none
  days : Option TextList := none
  excludeDays : Option TextList := none
deriving DecidableEq

inductive ScheduleNode where
  | scalar (text : String)
  | mapping (mapping : ScheduleMapping)
  | sequence
deriving DecidableEq

/-- `TimeList.UnmarshalYAML`. -/
def decodeTimes (node : Option TextList) : Except ScheduleError (List Int) :=
  ((node.map TextList.texts).getD []).foldlM parseTimes []

/-- `DayList.UnmarshalYAML`; every text replaces the days read before. -/
def decodeDays (edition : Edition) (node : Option TextList) : Except ScheduleError DayList :=
  ((node.map TextList.texts).getD []).foldlM (fun _ text => supporterParseDayList edition text) {}

def decodeBlackout (edition : Edition) (node : BlackoutNode) : Except ScheduleError Blackout := do
  return { beginAt := node.beginAt, endAt := node.endAt, days := ← decodeDays edition node.days }

/-- `Blackouts.UnmarshalYAML`; a single one is a list of one. -/
def decodeBlackouts (edition : Edition) (nodes : Option (List BlackoutNode)) :
    Except ScheduleError (Option (List Blackout)) :=
  match nodes with
  | none => .ok none
  | some list => some <$> list.mapM (decodeBlackout edition)

/-- `value.Decode(&a)` and `normalize`. -/
def decodeMapping (edition : Edition) (node : ScheduleMapping) : Except ScheduleError Schedule := do
  let time ← decodeTimes node.time
  let blackout ← decodeBlackouts edition node.blackout
  let days ← decodeDays edition node.days
  let excludeDays ← decodeDays edition node.excludeDays
  return {
    cron := unquoteScheduleValue node.cron
    interval := node.interval
    beginAt := unquoteScheduleValue node.beginAt
    time
    start := unquoteScheduleValue node.start
    recurring := unquoteScheduleValue node.recurring
    blackout, days, excludeDays }

def validateBegin (text : String) : Except ScheduleError Unit :=
  let b := trimSpace text
  if hasQuote b then .error (.beginQuotes text)
  else if hasPrefix b "+" then
    match atoi? (trimPrefix b "+") with
    | some n => if n < 0 then .error (.beginMinutes text) else .ok ()
    | none => .error (.beginMinutes text)
  else if b.utf8ByteSize = 4 ∧ allDigits b = true then
    if (parseClock b).isSome then .ok () else .error (.beginClock text)
  else .error (.beginInvalid text)

def validate (s : Schedule) : Except ScheduleError Unit :=
  (if s.cron ≠ "" then validateCron s.cron else .ok ()) >>= fun _ =>
    if s.beginAt ≠ "" then validateBegin s.beginAt else .ok ()

/-- What recurs is read like a string; only its cron expression, interval and
times are kept. -/
def resolveRecurring (edition : Edition) (s : Schedule) : Except ScheduleError Schedule :=
  if s.recurring = "" then .ok s
  else
    match parseString edition s.recurring with
    | .error _ => .error (.cannotParseRecurring s.recurring)
    | .ok ns => .ok { s with cron := ns.cron, interval := ns.interval, time := ns.time }

def unmarshalYAML (edition : Edition) : ScheduleNode → Except ScheduleError Schedule
  | .scalar text => parseString edition text
  | .sequence => .error .notAMapping
  | .mapping node => do
      let s ← decodeMapping edition node
      let s ← resolveRecurring edition s
      validate s
      supporterSchedule edition s

/-- Loading: the node, and the check of the job it belongs to. -/
def loadSchedule (edition : Edition) (node : ScheduleNode) : Except ScheduleError Schedule := do
  let s ← unmarshalYAML edition node
  validate s
  supporterSchedule edition s

def Accepted (edition : Edition) (s : Schedule) : Prop :=
  ∃ node, loadSchedule edition node = .ok s

/-! ### What loading keeps -/

theorem bind_eq_ok {ε α β : Type} {first : Except ε α} {next : α → Except ε β} {result : β} :
    first >>= next = .ok result ↔ ∃ value, first = .ok value ∧ next value = .ok result := by
  cases first with
  | error error =>
    constructor
    · intro bound
      cases bound
    · rintro ⟨value, isValue, -⟩
      cases isValue
  | ok value =>
    constructor
    · intro bound
      exact ⟨value, rfl, bound⟩
    · rintro ⟨other, isOther, bound⟩
      rw [Except.ok.inj isOther]
      exact bound

/-- What every step of a fold keeps, the fold keeps. -/
theorem foldlM_ok_keeps {ε α β : Type} {step : β → α → Except ε β} {Holds : β → Prop}
    (keeps : ∀ before item after, step before item = .ok after → Holds before → Holds after)
    {items : List α} {start result : β} (holds : Holds start)
    (done : items.foldlM step start = .ok result) : Holds result := by
  induction items generalizing start with
  | nil =>
    rw [← Except.ok.inj done]
    exact holds
  | cons item rest ih =>
    rw [List.foldlM_cons] at done
    obtain ⟨next, isNext, later⟩ := bind_eq_ok.mp done
    exact ih (keeps start item next isNext holds) later

theorem mapM_ok_forall {ε α β : Type} {f : α → Except ε β} {Holds : β → Prop}
    (each : ∀ item result, f item = .ok result → Holds result) {items : List α}
    {results : List β} (all : items.mapM f = .ok results) : ∀ result ∈ results, Holds result := by
  induction items generalizing results with
  | nil =>
    rw [← Except.ok.inj all]
    simp
  | cons item rest ih =>
    rw [List.mapM_cons] at all
    obtain ⟨first, isFirst, later⟩ := bind_eq_ok.mp all
    obtain ⟨others, isRest, joined⟩ := bind_eq_ok.mp later
    rw [← Except.ok.inj joined]
    intro result member
    rcases List.mem_cons.mp member with rfl | inOthers
    · exact each item _ isFirst
    · exact ih isRest result inOthers

theorem forM_ok_forall {ε α : Type} {check : α → Except ε Unit} {items : List α} {done : PUnit}
    (all : items.forM check = .ok done) : ∀ item ∈ items, check item = .ok () := by
  induction items with
  | nil => simp
  | cons item rest ih =>
    obtain ⟨first, isFirst, later⟩ := bind_eq_ok.mp all
    intro other member
    rcases List.mem_cons.mp member with rfl | inRest
    · exact isFirst
    · exact ih later other inRest

theorem forM_ok_of_forall {ε α : Type} {check : α → Except ε Unit} {items : List α}
    (each : ∀ item ∈ items, check item = .ok ()) : items.forM check = .ok () := by
  induction items with
  | nil => rfl
  | cons item rest ih =>
    refine bind_eq_ok.mpr ⟨(), each item List.mem_cons_self, ?_⟩
    exact ih (List.forall_mem_cons.mp each).2

/-- Without a cron expression the times are minutes of a day. -/
def Timed (s : Schedule) : Prop := s.cron = "" → ∀ m ∈ s.time, 0 ≤ m ∧ m < 1440

theorem parseClock_range {s : String} {m : Int} (read : parseClock s = some m) :
    0 ≤ m ∧ m < 1440 := by
  unfold parseClock at read
  simp only at read
  split at read
  · split at read
    · cases read
    · rename_i inside
      rw [← Option.some.inj read]
      omega
  · cases read

theorem parseTimes_range {times read : List Int} {s : String}
    (parsed : parseTimes times s = .ok read) (before : ∀ m ∈ times, 0 ≤ m ∧ m < 1440) :
    ∀ m ∈ read, 0 ≤ m ∧ m < 1440 := by
  obtain ⟨added, isAdded, sorted⟩ := bind_eq_ok.mp parsed
  have inRange : ∀ m ∈ added, 0 ≤ m ∧ m < 1440 := by
    refine mapM_ok_forall ?_ isAdded
    intro tok m read
    split at read
    · rename_i clock isClock
      rw [← Except.ok.inj read]
      exact parseClock_range isClock
    · cases read
  intro m member
  rw [← Except.ok.inj sorted, List.mem_mergeSort] at member
  rcases List.mem_append.mp member with early | late
  · exact before m early
  · exact inRange m late

theorem decodeTimes_range {node : Option TextList} {times : List Int}
    (decoded : decodeTimes node = .ok times) : ∀ m ∈ times, 0 ≤ m ∧ m < 1440 := by
  have nothing : ∀ m ∈ ([] : List Int), 0 ≤ m ∧ m < 1440 := by simp
  exact foldlM_ok_keeps (fun _ _ _ parsed inRange => parseTimes_range parsed inRange) nothing decoded

variable {edition : Edition}

/-- The limits of the edition leave a schedule as it is, up to its later times. -/
theorem supporterSchedule_ok {s limited : Schedule}
    (allowed : supporterSchedule edition s = .ok limited) :
    limited = s ∨ limited = { s with time := s.time.take 1 } := by
  unfold supporterSchedule at allowed
  split at allowed
  · exact .inl (Except.ok.inj allowed).symm
  · unfold communityScheduleLimits at allowed
    repeat' split at allowed
    all_goals first
      | cases allowed; done
      | exact .inr (Except.ok.inj allowed).symm

theorem Timed.of_supporterSchedule {s limited : Schedule} (timed : Timed s)
    (allowed : supporterSchedule edition s = .ok limited) : Timed limited := by
  rcases supporterSchedule_ok allowed with rfl | rfl
  · exact timed
  · intro noCron m member
    exact timed noCron m (List.mem_of_mem_take member)

theorem timed_of_noTime {s : Schedule} (noTime : s.time = []) : Timed s := by
  intro _ m member
  rw [noTime] at member
  cases member

/-- A phrase with a time is read to a cron expression. -/
theorem timed_nlSchedule {facts : NlResult} {s : Schedule} (built : nlSchedule facts = some s) :
    Timed s := by
  unfold nlSchedule at built
  split at built
  · rw [← Option.some.inj built]
    unfold startSchedule
    apply timed_of_noTime
    simp only
    split
    · rfl
    · split <;> rfl
  · split at built
    · rw [← Option.some.inj built]
      exact timed_of_noTime rfl
    · split at built
      · rw [← Option.some.inj built]
        intro noCron
        exact absurd noCron (timeSchedule_cron _ _)
      · split at built
        · rw [← Option.some.inj built]
          exact timed_of_noTime rfl
        · split at built
          · rw [← Option.some.inj built]
            exact timed_of_noTime rfl
          · split at built
            · rw [← Option.some.inj built]
              exact timed_of_noTime rfl
            · cases built

theorem timed_supporterParseNL {phrase : String} {s : Schedule}
    (read : supporterParseNL edition phrase = .ok (some s)) : Timed s := by
  cases edition with
  | community =>
    unfold supporterParseNL at read
    simp only at read
    split at read
    · cases read
    · cases read
  | supporter licensed =>
    cases licensed with
    | false => cases read
    | true =>
      have parsed : parseNL phrase = some s := Except.ok.inj read
      obtain ⟨facts, -, built⟩ := Option.bind_eq_some_iff.mp parsed
      exact timed_nlSchedule built

theorem timed_parseString {value : String} {s : Schedule}
    (parsed : parseString edition value = .ok s) : Timed s := by
  have ofTimes : ∀ str, parseTimeString edition str = .ok s → Timed s := by
    intro str done
    obtain ⟨times, isTimes, allowed⟩ := bind_eq_ok.mp done
    refine Timed.of_supporterSchedule ?_ allowed
    exact fun _ => parseTimes_range isTimes (by simp)
  have ofCron : ∀ str, parseCronString edition str = .ok s → Timed s := by
    intro str done
    obtain ⟨_, -, allowed⟩ := bind_eq_ok.mp done
    exact Timed.of_supporterSchedule (timed_of_noTime rfl) allowed
  unfold parseString at parsed
  simp only at parsed
  split at parsed
  · exact Timed.of_supporterSchedule (timed_of_noTime rfl) parsed
  · split at parsed
    · exact ofTimes _ parsed
    · split at parsed
      · exact ofTimes _ parsed
      · split at parsed
        · exact ofCron _ parsed
        · split at parsed
          · exact Timed.of_supporterSchedule (timed_of_noTime rfl) parsed
          · split at parsed
            · cases parsed
            · rename_i phrase read
              refine Timed.of_supporterSchedule ?_ parsed
              exact timed_supporterParseNL read
            · split at parsed
              · exact ofCron _ parsed
              · cases parsed

theorem timed_unmarshalYAML {node : ScheduleNode} {s : Schedule}
    (decoded : unmarshalYAML edition node = .ok s) : Timed s := by
  cases node with
  | scalar text =>
    rw [unmarshalYAML] at decoded
    exact timed_parseString decoded
  | sequence =>
    rw [unmarshalYAML] at decoded
    cases decoded
  | mapping node =>
    rw [unmarshalYAML] at decoded
    obtain ⟨raw, isRaw, later⟩ := bind_eq_ok.mp decoded
    obtain ⟨resolved, isResolved, later⟩ := bind_eq_ok.mp later
    obtain ⟨_, -, allowed⟩ := bind_eq_ok.mp later
    refine Timed.of_supporterSchedule ?_ allowed
    have rawTimes : ∀ m ∈ raw.time, 0 ≤ m ∧ m < 1440 := by
      unfold decodeMapping at isRaw
      obtain ⟨times, isTimes, rest⟩ := bind_eq_ok.mp isRaw
      obtain ⟨_, -, rest⟩ := bind_eq_ok.mp rest
      obtain ⟨_, -, rest⟩ := bind_eq_ok.mp rest
      obtain ⟨_, -, rest⟩ := bind_eq_ok.mp rest
      rw [← Except.ok.inj rest]
      exact decodeTimes_range isTimes
    unfold resolveRecurring at isResolved
    split at isResolved
    · rw [← Except.ok.inj isResolved]
      exact fun _ => rawTimes
    · split at isResolved
      · cases isResolved
      · rename_i ns isParsed
        have timed : Timed ns := timed_parseString isParsed
        rw [← Except.ok.inj isResolved]
        exact timed

theorem validate_ok {s : Schedule} {done : Unit} (valid : validate s = .ok done) :
    (s.cron ≠ "" → validateCron s.cron = .ok ()) ∧
      (s.beginAt ≠ "" → validateBegin s.beginAt = .ok ()) := by
  unfold validate at valid
  obtain ⟨_, cronValid, beginValid⟩ := bind_eq_ok.mp valid
  constructor
  · intro hasCron
    rw [if_pos hasCron] at cronValid
    exact cronValid
  · intro hasBegin
    rw [if_pos hasBegin] at beginValid
    exact beginValid

/-- What the scheduler can rely on. -/
structure AcceptedSpec (s : Schedule) : Prop where
  cron : s.cron ≠ "" → validateCron s.cron = .ok ()
  beginAt : s.beginAt ≠ "" → validateBegin s.beginAt = .ok ()
  timed : Timed s

theorem accepted_spec {s : Schedule} (accepted : Accepted edition s) : AcceptedSpec s := by
  obtain ⟨node, loaded⟩ := accepted
  obtain ⟨raw, isRaw, later⟩ := bind_eq_ok.mp loaded
  obtain ⟨_, isValid, allowed⟩ := bind_eq_ok.mp later
  have timed := (timed_unmarshalYAML isRaw).of_supporterSchedule allowed
  have sameCron : s.cron = raw.cron := by
    rcases supporterSchedule_ok allowed with rfl | rfl <;> rfl
  have sameBegin : s.beginAt = raw.beginAt := by
    rcases supporterSchedule_ok allowed with rfl | rfl <;> rfl
  refine ⟨?_, ?_, timed⟩
  · rw [sameCron]
    exact (validate_ok isValid).1
  · rw [sameBegin]
    exact (validate_ok isValid).2

end DbBackup.Config
