import DbBackup.Config.Resolve

/-!
Owns the wait for a database: `MethodOf`, `retryLoop` and `WithConnectivity` of
`internal/database/common/connectivity.go`, in a context that is never cancelled.

Time is counted in nanoseconds from the call, and an operation is what a call of it begun at
each time would do: how long it takes and the error it returns. A loop that need not end has
fuel.

Contract: `tolerates_iff`. The loop waits, but `connect` is called once, before it and outside
of it. So a database that comes up after the call is waited
for by no method, and one that stays down is given up with the first error of `connect`.

Does not own: the configuration's defaults, and the operations of the engines.
-/

set_option linter.all false

namespace DbBackup.Engine.Connectivity

open Config.Resolve Lib

/-! ### Operations -/

structure Answer where
  took : Nat
  err : Option String
deriving DecidableEq

abbrev Op := Nat → Answer

def second : Nat := 1000000000

/-- `time.Duration(n) * time.Second`, which wraps in 64 bits. -/
def seconds (n : Int) : Int := Int.bmod (n * second) (2 ^ 64)

/-! ### The configuration -/

inductive Method where
  | none
  | simple
  | full
deriving DecidableEq

/-- `unicode.ToLower`, as far as a text in ASCII can tell. -/
def lowerChar (c : Char) : Char :=
  if c = '\u0130' then 'i' else if c = '\u212a' then 'k' else c.toLower

def methodOf (cfg : ConnectivityConfig) : Method :=
  let method := String.ofList ((GoString.trimSpace cfg.method).toList.map lowerChar)
  if method = "none" then .none else if method = "simple" then .simple else .full

def isEnabled (cfg : ConnectivityConfig) : Bool := cfg.enabled.getD true

def retryInterval (cfg : ConnectivityConfig) : Int :=
  if cfg.retryInterval ≤ 0 then 3 else cfg.retryInterval

/-- None is the zero time: no deadline. -/
def deadline (cfg : ConnectivityConfig) : Option Int :=
  if 0 < cfg.timeout then some (seconds cfg.timeout) else none

/-! ### The wait -/

inductive Failure where
  | failed (err : String)
  | notReachable (name : String) (waited : Int) (attempts : Nat) (cause : String)
deriving DecidableEq

inductive Outcome where
  | returned (time : Nat) (err : Option Failure)
  /-- A nil function is called. -/
  | panicked
deriving DecidableEq

def isAfter (time : Nat) (deadline : Option Int) : Bool :=
  match deadline with
  | none => false
  | some deadline => decide (deadline < time)

def notReachable (name : String) (interval : Int) (deadline : Option Int) (attempt time : Nat)
    (cause : String) : Failure :=
  let began := deadline.getD 0 - seconds (interval * attempt)
  .notReachable name (Int.tdiv (time - began) second) attempt cause

/-- The turns of the loop from the given attempt on; none is a loop that is out of fuel. -/
def retryLoop (name : String) (interval : Int) (deadline : Option Int) (fn : Op) :
    Nat → Nat → Nat → Option Outcome
  | 0, _, _ => none
  | fuel + 1, attempt, now =>
    let time := now + (fn now).took
    match (fn now).err with
    | none => some (.returned time none)
    | some cause =>
      if isAfter time deadline then
        some (.returned time (some (notReachable name interval deadline attempt time cause)))
      else
        retryLoop name interval deadline fn fuel (attempt + 1) (time + (seconds interval).toNat)

def withConnectivity (name : String) (cfg : Option ConnectivityConfig) (probe : Option Op)
    (connect : Op) (ping : Option Op) (fuel : Nat) : Option Outcome :=
  let connected := connect 0
  let time := connected.took
  match cfg with
  | none =>
    match connected.err, ping with
    | some err, _ => some (.returned time (some (.failed err)))
    | none, none => some (.returned time none)
    | none, some ping =>
      some (.returned (time + (ping time).took) ((ping time).err.map .failed))
  | some cfg =>
    if isEnabled cfg = false ∨ methodOf cfg = .none then
      some (.returned time (connected.err.map .failed))
    else
      match connected.err with
      | some err => some (.returned time (some (.failed err)))
      | none =>
        match methodOf cfg, probe, ping with
        | .simple, none, _ => some (.returned time none)
        | .simple, some probe, _ =>
          retryLoop name (retryInterval cfg) (deadline cfg) probe fuel 1 time
        | _, _, none => some .panicked
        | _, _, some ping => retryLoop name (retryInterval cfg) (deadline cfg) ping fuel 1 time

/-! ### Schedules -/

/-- Calls fail before the time and succeed from it on. -/
def UpFrom (time : Nat) (op : Op) : Prop := ∀ now, (op now).err = none ↔ time ≤ now

/-- Calls fail up to the time. -/
def DownFor (time : Nat) (op : Op) : Prop := ∀ now ≤ time, (op now).err ≠ none

/-! ### The loop by itself -/

section Loop

variable {name : String} {interval : Int} {limit : Int} {fn : Op}

end Loop

/-! ### The wait of an enabled configuration -/

/-- A call with a configuration that asks for a check by `simple` or `full` and has a timeout. -/
structure Wait where
  name : String
  cfg : ConnectivityConfig
  probe : Op
  connect : Op
  ping : Op
  enabled : isEnabled cfg = true
  checks : methodOf cfg ≠ .none
  timed : 0 < cfg.timeout

namespace Wait

variable (wait : Wait)

def outcome : Nat → Option Outcome :=
  withConnectivity wait.name (some wait.cfg) (some wait.probe) wait.connect (some wait.ping)

def timeout : Nat := wait.cfg.timeout.toNat * second

def interval : Nat := (retryInterval wait.cfg).toNat * second

def AllUpFrom (time : Nat) : Prop :=
  UpFrom time wait.connect ∧ UpFrom time wait.probe ∧ UpFrom time wait.ping

def AllDownFor (time : Nat) : Prop :=
  DownFor time wait.connect ∧ DownFor time wait.probe ∧ DownFor time wait.ping

/-- What a wait is for: nil for a database that comes up a retry interval before the timeout,
and an error after the timeout for one that stays down until then. -/
structure Tolerates : Prop where
  late : ∀ up, wait.AllUpFrom up → up + wait.interval < wait.timeout →
    ∃ fuel time, wait.outcome fuel = some (.returned time none)
  down : wait.AllDownFor wait.timeout →
    (∃ fuel time err, wait.outcome fuel = some (.returned time (some err)) ∧
      wait.timeout < time) ∧
    ∀ fuel time, wait.outcome fuel ≠ some (.returned time none)

theorem notDisabled : ¬ (isEnabled wait.cfg = false ∨ methodOf wait.cfg = .none) := by
  rintro (disabled | isNone)
  · rw [wait.enabled] at disabled
    cases disabled
  · exact wait.checks isNone

/-- The one call of `connect` decides when it fails. -/
theorem outcome_of_failed {err : String} (failed : (wait.connect 0).err = some err) (fuel : Nat) :
    wait.outcome fuel = some (.returned (wait.connect 0).took (some (.failed err))) := by
  unfold outcome withConnectivity
  dsimp only
  rw [if_neg wait.notDisabled, failed]

theorem outcome_of_connected (connected : (wait.connect 0).err = none) (fuel : Nat) :
    wait.outcome fuel = retryLoop wait.name (retryInterval wait.cfg) (deadline wait.cfg)
      (if methodOf wait.cfg = .simple then wait.probe else wait.ping) fuel 1
      (wait.connect 0).took := by
  unfold outcome withConnectivity
  dsimp only
  rw [if_neg wait.notDisabled, connected]
  cases method : methodOf wait.cfg with
  | none => exact absurd method wait.checks
  | simple => rfl
  | full => rfl

/-- A database that is up at the call is found by the first attempt. -/
theorem outcome_of_up (up : wait.AllUpFrom 0) :
    ∃ time, wait.outcome 1 = some (.returned time none) := by
  obtain ⟨connect, probe, ping⟩ := up
  rw [wait.outcome_of_connected ((connect 0).mpr (Nat.le_refl 0))]
  have first : UpFrom 0 (if methodOf wait.cfg = .simple then wait.probe else wait.ping) := by
    split
    · exact probe
    · exact ping
  exact ⟨_, by
    simp only [retryLoop, (first (wait.connect 0).took).mpr (Nat.zero_le _)]
    rfl⟩

theorem not_up_of_failed {err : String} (failed : (wait.connect 0).err = some err)
    (fuel time : Nat) : wait.outcome fuel ≠ some (.returned time none) := by
  rw [wait.outcome_of_failed failed]
  intro same
  cases same

/-- The wait does its work exactly for a database that is up at the call or comes up too late
to be promised anything, and, when it stays down, where the single attempt of `connect` lasts
longer than the timeout. -/
theorem tolerates_iff (wait : Wait) :
    wait.Tolerates ↔
      (∀ up, wait.AllUpFrom up → up + wait.interval < wait.timeout → up = 0) ∧
      (wait.AllDownFor wait.timeout → wait.timeout < (wait.connect 0).took) := by
  constructor
  · intro tolerates
    refine ⟨fun up allUp inTime => ?_, fun allDown => ?_⟩
    · by_contra notNow
      obtain ⟨err, failed⟩ : ∃ err, (wait.connect 0).err = some err := by
        refine Option.ne_none_iff_exists'.mp fun connected => ?_
        have := (allUp.1 0).mp connected
        omega
      obtain ⟨fuel, time, isNil⟩ := tolerates.late up allUp inTime
      exact wait.not_up_of_failed failed fuel time isNil
    · obtain ⟨err, failed⟩ := Option.ne_none_iff_exists'.mp (allDown.1 0 (Nat.zero_le _))
      obtain ⟨⟨fuel, time, reported, returned, after⟩, -⟩ := tolerates.down allDown
      rw [wait.outcome_of_failed failed] at returned
      cases returned
      exact after
  · rintro ⟨upAtOnce, lasts⟩
    refine ⟨fun up allUp inTime => ?_, fun allDown => ?_⟩
    · obtain rfl := upAtOnce up allUp inTime
      exact ⟨1, wait.outcome_of_up allUp⟩
    · obtain ⟨err, failed⟩ := Option.ne_none_iff_exists'.mp (allDown.1 0 (Nat.zero_le _))
      exact ⟨⟨0, _, _, wait.outcome_of_failed failed 0, lasts allDown⟩,
        wait.not_up_of_failed failed⟩

end Wait

/-! ### A database that starts with the backup -/

/-- Refused until one second after the call. -/
def startsLate : Op := fun now =>
  if now < second then ⟨0, some "connection refused"⟩ else ⟨0, none⟩

theorem upFrom_startsLate : UpFrom second startsLate := by
  intro now
  unfold startsLate
  split
  · simpa using ‹now < second›
  · simpa using Nat.le_of_not_lt ‹_›

/-- The defaults: retries every five seconds for half a minute. -/
def startingWait : Wait where
  name := "postgres"
  cfg := { enabled := some true, method := "full", retryInterval := 5, timeout := 30 }
  probe := startsLate
  connect := startsLate
  ping := startsLate
  enabled := rfl
  checks := by decide +kernel
  timed := by decide

theorem second_late_not_tolerated : ¬ startingWait.Tolerates := by
  intro tolerates
  obtain ⟨fuel, time, isNil⟩ := tolerates.late second
    ⟨upFrom_startsLate, upFrom_startsLate, upFrom_startsLate⟩ (by decide +kernel)
  exact startingWait.not_up_of_failed (show (startsLate 0).err = some "connection refused" by
    decide +kernel) fuel time isNil

end DbBackup.Engine.Connectivity
