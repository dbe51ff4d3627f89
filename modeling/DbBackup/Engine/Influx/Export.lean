import DbBackup.Lib.Run
import Mathlib.Data.List.Nodup
import Mathlib.Data.List.Perm.Basic

/-!
Owns `dumpMeasurementsParallel`, `runTask` and `finishMeasurement` of
`internal/database/engine/influx/influx.go`: the feeder that asks for the tag keys
and hands out the measurements, the workers that write their lines, and the
statistics made of what is left in the shared states.

Contract: along every interleaving a measurement is waiting, with one worker, or
settled with the outcome of its queries (`Inv`). After a complete run the
statistics count every incomplete measurement once, and those whose tag keys could
not be read a second time, because the feeder counts them too
(`accounted_iff`).

Does not own how a row becomes a line, or which rows a query returns.
-/

set_option linter.all false

namespace DbBackup.Engine.Influx.Export

open Lib.Run

/-! ### What the queries return -/

/-- The data query of a measurement: as CSV, as JSON after some lines of a CSV that
could not be read on, or failed after some lines. -/
inductive Outcome where
  | csv
  | csvThenJson (before : Nat)
  | failed (before : Nat)
  | csvThenFailed (before after : Nat)

def Outcome.isFailed : Outcome → Bool
  | .csv => false
  | .csvThenJson _ => false
  | .failed _ => true
  | .csvThenFailed _ _ => true

/-- The lines `emit` writes, in order. -/
def Outcome.emitted (all : List String) : Outcome → List String
  | .csv => all
  | .csvThenJson before => all.take before ++ all
  | .failed before => all.take before
  | .csvThenFailed before after => all.take before ++ all.take after

/-- A dump of a database: its measurements, the lines of their rows, and how the
queries and the flushes go. -/
structure Job where
  db : String
  workers : Nat
  measurements : List String
  distinct : measurements.Nodup
  tagKeysFail : String → Bool
  lines : String → List String
  outcome : String → Outcome
  flushFails : String → Bool

variable (job : Job)

def Job.emitted (m : String) : List String := (job.outcome m).emitted (job.lines m)

/-- A query or the flush of the measurement failed. -/
def Job.incomplete (m : String) : Bool :=
  job.tagKeysFail m || (job.outcome m).isFailed || job.flushFails m

def Job.skippedName (m : String) : String := job.db ++ "." ++ m

/-! ### The feeder and the workers -/

structure MeasState where
  lines : Nat := 0
  pending : Int := 1
  failed : Bool := false
deriving DecidableEq

structure DumpStats where
  lines : Nat := 0
  skipped : Nat := 0
  skippedNames : List String := []
deriving DecidableEq

def DumpStats.skip (st : DumpStats) (name : String) : DumpStats :=
  { st with skipped := st.skipped + 1, skippedNames := st.skippedNames ++ [name] }

inductive Phase where
  | lines (rest : List String)
  | header

structure Task where
  m : String
  phase : Phase

structure State where
  rest : List String
  states : String → MeasState := fun _ => {}
  workers : Nat → Option Task := fun _ => none
  output : List String := []
  st : DumpStats := {}

inductive Event where
  | feed (worker : Nat)
  | work (worker : Nat)

def State.setMeas (state : State) (m : String) (ms : MeasState) : State :=
  { state with states := fun other => if other = m then ms else state.states other }

def State.setWorker (state : State) (worker : Nat) (task : Option Task) : State :=
  { state with workers := fun other => if other = worker then task else state.workers other }

/-- The first part of `finishMeasurement`, under the lock of the measurement. -/
def MeasState.finish (ms : MeasState) (failed : Bool) : MeasState :=
  { ms with failed := ms.failed || failed, pending := ms.pending - 1 }

/-- The feeder's next measurement, handed to an idle worker. -/
def feed (state : State) (worker : Nat) : State :=
  match state.rest with
  | [] => state
  | m :: later =>
    if job.tagKeysFail m then
      { state.setMeas m ((state.states m).finish true) with
        rest := later, st := state.st.skip (job.skippedName m) }
    else if job.workers ≤ worker then state
    else
      match state.workers worker with
      | some _ => state
      | none =>
        { (state.setMeas m { state.states m with pending := 1 }).setWorker worker
            (some ⟨m, .lines (job.emitted m)⟩) with rest := later }

def headerLines (m : String) : List String :=
  ["", "# CONTEXT-DATABASE: " ++ job.db, "# MEASUREMENT: " ++ m]

/-- The next thing a worker does for its measurement. -/
def workOn (state : State) (worker : Nat) (m : String) : Phase → State
  | .lines (line :: rest) =>
    { (state.setMeas m { state.states m with lines := (state.states m).lines + 1 }).setWorker
        worker (some ⟨m, .lines rest⟩) with output := state.output ++ [line] }
  | .lines [] =>
    let ms := (state.states m).finish (job.outcome m).isFailed
    if ms.pending = 0 ∧ ms.failed = false then
      (state.setMeas m ms).setWorker worker (some ⟨m, .header⟩)
    else (state.setMeas m ms).setWorker worker none
  | .header =>
    { (state.setMeas m { state.states m with
          failed := (state.states m).failed || job.flushFails m }).setWorker worker none with
      output := state.output ++ headerLines job m }

def step (state : State) : Event → State
  | .feed worker => feed job state worker
  | .work worker =>
    match state.workers worker with
    | none => state
    | some task => workOn job state worker task.m task.phase

def dump (events : List Event) : State := run (step job) { rest := job.measurements } events

/-- All tasks are done and the workers have returned. -/
def State.Complete (state : State) : Prop :=
  state.rest = [] ∧ ∀ worker, (state.workers worker).isNone = true

/-- The loop after `wg.Wait()`. -/
def finalStats (state : State) : DumpStats :=
  job.measurements.foldl (fun st m =>
    if (state.states m).failed then st.skip (job.skippedName m)
    else { st with lines := st.lines + (state.states m).lines }) state.st

/-! ### Where a measurement is -/

structure Settled (state : State) (m : String) : Prop where
  failed : (state.states m).failed = job.incomplete m
  written : job.incomplete m = false → (job.lines m).Sublist state.output

def Running (state : State) (m : String) : Phase → Prop
  | .lines rest => (state.states m).failed = false ∧ (state.states m).pending = 1 ∧
      ∃ written, written ++ rest = job.emitted m ∧ written.Sublist state.output
  | .header => (state.states m).failed = false ∧ (job.outcome m).isFailed = false ∧
      (job.emitted m).Sublist state.output

def State.Free (state : State) (m : String) : Prop :=
  ∀ worker task, state.workers worker = some task → task.m ≠ m

/-- A measurement waits for the feeder, is with one worker, or is settled. -/
inductive Place (state : State) (m : String) : Prop where
  | waiting (queued : m ∈ state.rest) (fresh : state.states m = {}) (free : state.Free m)
  | running (worker : Nat) (phase : Phase) (notQueued : m ∉ state.rest)
      (tagKeys : job.tagKeysFail m = false) (task : state.workers worker = some ⟨m, phase⟩)
      (only : ∀ other task, state.workers other = some task → task.m = m → other = worker)
      (running : Running job state m phase)
  | settled (notQueued : m ∉ state.rest) (free : state.Free m) (settled : Settled job state m)

variable {job}

variable {phase : Phase}

theorem Running.frame {state next : State} {m : String}
    (running : Running job state m phase) (same : next.states m = state.states m)
    (grown : state.output.Sublist next.output) : Running job next m phase := by
  cases phase with
  | lines rest =>
    obtain ⟨failed, pending, written, parts, inOutput⟩ := running
    exact ⟨same ▸ failed, same ▸ pending, written, parts, inOutput.trans grown⟩
  | header => exact ⟨same ▸ running.1, running.2.1, running.2.2.trans grown⟩

/-- A step for another measurement. -/
theorem Place.frame {state next : State} {m : String} (place : Place job state m)
    (queue : m ∈ next.rest ↔ m ∈ state.rest) (same : next.states m = state.states m)
    (grown : state.output.Sublist next.output)
    (tasks : ∀ worker task, task.m = m →
      (next.workers worker = some task ↔ state.workers worker = some task)) :
    Place job next m := by
  have free : state.Free m → next.Free m := fun stateFree worker task has isM =>
    stateFree worker task ((tasks worker task isM).mp has) isM
  cases place with
  | waiting queued fresh stateFree =>
    exact .waiting (queue.mpr queued) (same.trans fresh) (free stateFree)
  | running worker phase notQueued tagKeys task only running =>
    refine .running worker phase (fun queued => notQueued (queue.mp queued)) tagKeys
      ((tasks worker _ rfl).mpr task) ?_ (running.frame same grown)
    exact fun other otherTask has isM => only other otherTask ((tasks _ _ isM).mp has) isM
  | settled notQueued stateFree settled =>
    refine .settled (fun queued => notQueued (queue.mp queued)) (free stateFree) ⟨?_, ?_⟩
    · rw [same]
      exact settled.failed
    · exact fun complete => (settled.written complete).trans grown

variable (job)

/-- The statistics the feeder has made for the measurements it is done with. -/
def fedStats (fed : List String) : DumpStats where
  lines := 0
  skipped := (fed.filter job.tagKeysFail).length
  skippedNames := (fed.filter job.tagKeysFail).map job.skippedName

structure Inv (state : State) : Prop where
  fed : ∃ fed, job.measurements = fed ++ state.rest ∧ state.st = fedStats job fed
  owned : ∀ worker task, state.workers worker = some task → task.m ∈ job.measurements
  places : ∀ m ∈ job.measurements, Place job state m

variable {job}

theorem inv_init : Inv job { rest := job.measurements } where
  fed := ⟨[], rfl, rfl⟩
  owned _ _ has := nomatch has
  places _ member := .waiting member rfl fun _ _ has => nomatch has

variable {state : State}

/-- The measurement that is fed next waits, and does not come again. -/
theorem Inv.next (inv : Inv job state) {m : String} {later : List String}
    (rest : state.rest = m :: later) :
    m ∈ job.measurements ∧ m ∉ later ∧ state.states m = {} ∧ state.Free m := by
  obtain ⟨fed, parts, -⟩ := inv.fed
  rw [rest] at parts
  have member : m ∈ job.measurements := parts ▸ List.mem_append_right _ List.mem_cons_self
  have distinct := job.distinct
  rw [parts] at distinct
  have notLater : m ∉ later := (List.nodup_cons.mp (List.nodup_append'.mp distinct).2.1).1
  have queued : m ∈ state.rest := rest ▸ List.mem_cons_self
  cases inv.places m member with
  | waiting _ fresh free => exact ⟨member, notLater, fresh, free⟩
  | running _ _ notQueued => exact absurd queued notQueued
  | settled notQueued => exact absurd queued notQueued

theorem fedStats_concat (fed : List String) (m : String) : fedStats job (fed ++ [m]) =
      if job.tagKeysFail m then (fedStats job fed).skip (job.skippedName m) else fedStats job fed := by
  by_cases fails : job.tagKeysFail m = true <;>
    simp [fedStats, DumpStats.skip, List.filter_append, fails]

theorem fed_of_feed (inv : Inv job state) {m : String} {later : List String}
    (rest : state.rest = m :: later) :
    ∃ fed, job.measurements = fed ++ later ∧
      fedStats job fed =
        if job.tagKeysFail m then state.st.skip (job.skippedName m) else state.st := by
  obtain ⟨fed, parts, stats⟩ := inv.fed
  refine ⟨fed ++ [m], ?_, ?_⟩
  · rw [parts, rest, List.append_assoc, List.singleton_append]
  · rw [fedStats_concat, stats]

theorem inv_feed (inv : Inv job state) (worker : Nat) : Inv job (feed job state worker) := by
  unfold feed
  cases rest : state.rest with
  | nil => exact inv
  | cons m later =>
    obtain ⟨member, notLater, fresh, free⟩ := inv.next rest
    obtain ⟨fed, parts, stats⟩ := fed_of_feed inv rest
    have otherQueue : ∀ other, other ≠ m → (other ∈ later ↔ other ∈ state.rest) :=
      fun other different => by simp [rest, different]
    by_cases fails : job.tagKeysFail m = true
    · simp only [fails, ↓reduceIte] at stats ⊢
      refine ⟨⟨fed, parts, stats.symm⟩, inv.owned, fun other inJob => ?_⟩
      by_cases isM : other = m
      · subst isM
        refine .settled notLater free ⟨?_, fun complete => ?_⟩
        · simp [State.setMeas, MeasState.finish, Job.incomplete, fails]
        · exact absurd complete (by simp [Job.incomplete, fails])
      · exact (inv.places other inJob).frame (otherQueue other isM) (by simp [State.setMeas, isM])
          (List.Sublist.refl _) fun _ _ _ => Iff.rfl
    · simp only [fails, Bool.false_eq_true, ↓reduceIte] at stats ⊢
      split
      · exact inv
      cases idle : state.workers worker with
      | some task => exact inv
      | none =>
        refine ⟨⟨fed, parts, stats.symm⟩, fun other task has => ?_, fun other inJob => ?_⟩
        · by_cases isWorker : other = worker
          · simp only [State.setWorker, isWorker, ↓reduceIte, Option.some.injEq] at has
            exact has ▸ member
          · simp only [State.setWorker, State.setMeas, isWorker, ↓reduceIte] at has
            exact inv.owned other task has
        by_cases isM : other = m
        · subst isM
          refine .running worker (.lines (job.emitted other)) notLater (Bool.eq_false_iff.mpr fails)
            (by simp [State.setWorker]) (fun third task has sameM => ?_) ?_
          · by_contra different
            simp only [State.setWorker, State.setMeas, different, ↓reduceIte] at has
            exact free third task has sameM
          · refine ⟨?_, ?_, [], rfl, List.nil_sublist _⟩
            · simp [State.setWorker, State.setMeas, fresh]
            · simp [State.setWorker, State.setMeas]
        · refine (inv.places other inJob).frame (otherQueue other isM)
            (by simp [State.setWorker, State.setMeas, isM]) (List.Sublist.refl _)
            fun third task sameM => ?_
          by_cases isWorker : third = worker
          · subst isWorker
            have notTask : ¬ (⟨m, .lines (job.emitted m)⟩ : Task) = task := by
              rintro rfl
              exact isM sameM.symm
            simp [State.setWorker, idle, notTask]
          · simp [State.setWorker, State.setMeas, isWorker]

/-- What a worker changes: the state of its measurement, its own task and more output. -/
structure WorkedOn (state next : State) (worker : Nat) (m : String) : Prop where
  rest : next.rest = state.rest
  st : next.st = state.st
  states : ∀ other, other ≠ m → next.states other = state.states other
  workers : ∀ other, other ≠ worker → next.workers other = state.workers other
  own : ∀ task, next.workers worker = some task → task.m = m
  grown : state.output.Sublist next.output

theorem workedOn (state : State) (worker : Nat) (m : String) (phase : Phase) :
    WorkedOn state (workOn job state worker m phase) worker m := by
  cases phase with
  | lines rest =>
    cases rest with
    | cons line rest =>
      exact
        { rest := rfl
          st := rfl
          states := fun other different => by
            simp [workOn, State.setWorker, State.setMeas, different]
          workers := fun other different => by
            simp [workOn, State.setWorker, State.setMeas, different]
          own := fun task has => by
            simp only [workOn, State.setWorker, ↓reduceIte, Option.some.injEq] at has
            exact has ▸ rfl
          grown := List.sublist_append_left .. }
    | nil =>
      simp only [workOn]
      split
      · exact
          { rest := rfl
            st := rfl
            states := fun other different => by
              simp [State.setWorker, State.setMeas, different]
            workers := fun other different => by
              simp [State.setWorker, State.setMeas, different]
            own := fun task has => by
              simp only [State.setWorker, ↓reduceIte, Option.some.injEq] at has
              exact has ▸ rfl
            grown := List.Sublist.refl _ }
      · exact
          { rest := rfl
            st := rfl
            states := fun other different => by
              simp [State.setWorker, State.setMeas, different]
            workers := fun other different => by
              simp [State.setWorker, State.setMeas, different]
            own := fun task has => by simp [State.setWorker] at has
            grown := List.Sublist.refl _ }
  | header =>
    exact
      { rest := rfl
        st := rfl
        states := fun other different => by
          simp [workOn, State.setWorker, State.setMeas, different]
        workers := fun other different => by
          simp [workOn, State.setWorker, State.setMeas, different]
        own := fun task has => by simp [workOn, State.setWorker] at has
        grown := List.sublist_append_left .. }

variable {worker : Nat}

/-- A worker that gives up its measurement leaves it without one. -/
theorem free_of_workedOn {state next : State} {m : String} (worked : WorkedOn state next worker m)
    (only : ∀ other task, state.workers other = some task → task.m = m → other = worker)
    (idle : next.workers worker = none) : next.Free m := by
  intro other task has isM
  by_cases isWorker : other = worker
  · rw [isWorker, idle] at has
    exact nomatch has
  · rw [worked.workers other isWorker] at has
    exact isWorker (only other task has isM)

theorem only_of_workedOn {state next : State} {m : String} (worked : WorkedOn state next worker m)
    (only : ∀ other task, state.workers other = some task → task.m = m → other = worker) :
    ∀ other task, next.workers other = some task → task.m = m → other = worker := by
  intro other task has isM
  by_contra different
  rw [worked.workers other different] at has
  exact different (only other task has isM)

theorem lines_sublist_emitted {m : String} (done : (job.outcome m).isFailed = false) :
    (job.lines m).Sublist (job.emitted m) := by
  unfold Job.emitted
  cases outcome : job.outcome m with
  | csv => exact List.Sublist.refl _
  | csvThenJson before => exact List.sublist_append_right ..
  | failed before => simp [outcome, Outcome.isFailed] at done
  | csvThenFailed before after => simp [outcome, Outcome.isFailed] at done

theorem place_workOn {m : String} (notQueued : m ∉ state.rest) (tagKeys : job.tagKeysFail m = false)
    (only : ∀ other task, state.workers other = some task → task.m = m → other = worker)
    (running : Running job state m phase) : Place job (workOn job state worker m phase) m := by
  have worked := @workedOn job state worker m phase
  have nextNotQueued : m ∉ (workOn job state worker m phase).rest := worked.rest ▸ notQueued
  have nextOnly := only_of_workedOn worked only
  cases phase with
  | lines rest =>
    obtain ⟨notFailed, pending, written, parts, inOutput⟩ := running
    cases rest with
    | cons line rest =>
      refine .running worker (.lines rest) nextNotQueued tagKeys
        (by simp [workOn, State.setWorker]) nextOnly ⟨?_, ?_, written ++ [line], ?_, ?_⟩
      · simp [workOn, State.setWorker, State.setMeas, notFailed]
      · simp [workOn, State.setWorker, State.setMeas, pending]
      · rw [List.append_assoc]
        exact parts
      · exact inOutput.append (List.Sublist.refl _)
    | nil =>
      rw [List.append_nil] at parts
      cases outcome : (job.outcome m).isFailed with
      | false =>
        have goesOn : workOn job state worker m (.lines []) =
            (state.setMeas m ((state.states m).finish false)).setWorker worker
              (some ⟨m, .header⟩) := by
          simp [workOn, MeasState.finish, outcome, notFailed, pending]
        rw [goesOn] at nextNotQueued nextOnly ⊢
        refine .running worker .header nextNotQueued tagKeys (by simp [State.setWorker])
          nextOnly ⟨?_, outcome, ?_⟩
        · simp [State.setWorker, State.setMeas, MeasState.finish, notFailed]
        · exact parts ▸ inOutput
      | true =>
        have stops : workOn job state worker m (.lines []) =
            (state.setMeas m ((state.states m).finish true)).setWorker worker none := by
          simp [workOn, MeasState.finish, outcome]
        have isIncomplete : job.incomplete m = true := by simp [Job.incomplete, outcome]
        have free := free_of_workedOn worked only (by rw [stops]; simp [State.setWorker])
        refine .settled nextNotQueued free ⟨?_, fun complete => ?_⟩
        · rw [stops, isIncomplete]
          simp [State.setWorker, State.setMeas, MeasState.finish]
        · exact absurd complete (by simp [isIncomplete])
  | header =>
    obtain ⟨notFailed, outcome, inOutput⟩ := running
    have free := free_of_workedOn worked only (by simp [workOn, State.setWorker])
    refine .settled nextNotQueued free ⟨?_, fun _ => ?_⟩
    · simp [workOn, State.setWorker, State.setMeas, notFailed, Job.incomplete, tagKeys, outcome]
    · exact ((lines_sublist_emitted outcome).trans inOutput).trans worked.grown

theorem inv_work (inv : Inv job state) {task : Task} (has : state.workers worker = some task) :
    Inv job (workOn job state worker task.m task.phase) := by
  have worked := @workedOn job state worker task.m task.phase
  have inJob : task.m ∈ job.measurements := inv.owned worker task has
  refine ⟨?_, fun other otherTask otherHas => ?_, fun other otherInJob => ?_⟩
  · rw [worked.rest, worked.st]
    exact inv.fed
  · by_cases isWorker : other = worker
    · rw [isWorker] at otherHas
      exact worked.own otherTask otherHas ▸ inJob
    · rw [worked.workers other isWorker] at otherHas
      exact inv.owned other otherTask otherHas
  by_cases isM : other = task.m
  · subst isM
    cases inv.places task.m inJob with
    | waiting _ _ free => exact absurd rfl (free worker task has)
    | running holder phase notQueued tagKeys holds only running =>
      have isHolder : worker = holder := only worker task has rfl
      rw [isHolder, holds] at has
      have samePhase : phase = task.phase := congrArg Task.phase (Option.some.inj has)
      rw [isHolder]
      exact samePhase ▸ place_workOn notQueued tagKeys only running
    | settled _ free => exact absurd rfl (free worker task has)
  · refine (inv.places other otherInJob).frame (by rw [worked.rest]) (worked.states other isM)
      worked.grown fun third thirdTask sameM => ?_
    by_cases isWorker : third = worker
    · rw [isWorker]
      constructor
      · intro nextHas
        exact absurd (sameM.symm.trans (worked.own thirdTask nextHas)) isM
      · intro stateHas
        have same : thirdTask = task := Option.some.inj (stateHas.symm.trans has)
        exact absurd (sameM.symm.trans (congrArg Task.m same)) isM
    · rw [worked.workers third isWorker]

theorem inv_step (inv : Inv job state) (event : Event) : Inv job (step job state event) := by
  cases event with
  | feed worker => exact inv_feed inv worker
  | work worker =>
    rw [step]
    cases has : state.workers worker with
    | none => exact inv
    | some task => exact inv_work inv has

theorem inv_dump (events : List Event) : Inv job (dump job events) :=
  @invariant_run _ _ (step job) (Inv job) (fun _ event inv => inv_step inv event) _ inv_init events

/-! ### The statistics of a complete run -/

theorem foldl_stats (failed : String → Bool) (lines : String → Nat) (ms : List String)
    (st : DumpStats) :
    let final := ms.foldl (fun st m => if failed m then st.skip (job.skippedName m)
      else { st with lines := st.lines + lines m }) st
    final.skipped = st.skipped + (ms.filter failed).length ∧
      final.skippedNames = st.skippedNames ++ (ms.filter failed).map job.skippedName := by
  induction ms generalizing st with
  | nil => simp
  | cons m rest ih =>
    rw [List.foldl_cons]
    by_cases isFailed : failed m = true
    · obtain ⟨skipped, names⟩ := ih (st.skip (job.skippedName m))
      simp only [isFailed, ↓reduceIte, List.filter_cons_of_pos, List.length_cons, List.map_cons]
      refine ⟨skipped.trans ?_, names.trans ?_⟩
      · simp only [DumpStats.skip]
        omega
      · simp [DumpStats.skip]
    · obtain ⟨skipped, names⟩ := ih { st with lines := st.lines + lines m }
      simp only [isFailed, Bool.false_eq_true, ↓reduceIte, not_false_eq_true,
        List.filter_cons_of_neg]
      exact ⟨skipped, names⟩

theorem settled_of_complete (inv : Inv job state) (complete : state.Complete)
    {m : String} (member : m ∈ job.measurements) : Settled job state m := by
  cases inv.places m member with
  | waiting queued =>
    rw [complete.1] at queued
    exact absurd queued List.not_mem_nil
  | running worker _ _ _ task =>
    have idle := complete.2 worker
    rw [task] at idle
    exact nomatch idle
  | settled _ _ settled => exact settled

variable (job) in
/-- The incomplete measurements are counted and named once, and the others have all
their lines in the output. -/
structure Accounted (stats : DumpStats) (output : List String) : Prop where
  skipped : stats.skipped = (job.measurements.filter job.incomplete).length
  names : stats.skippedNames.Perm ((job.measurements.filter job.incomplete).map job.skippedName)
  written : ∀ m ∈ job.measurements, job.skippedName m ∉ stats.skippedNames →
    (job.lines m).Sublist output

/-- The feeder's count comes on top of that of the last loop. -/
theorem finalStats_eq (inv : Inv job state) (complete : state.Complete) :
    (finalStats job state).skipped = (job.measurements.filter job.tagKeysFail).length +
        (job.measurements.filter job.incomplete).length ∧
      (finalStats job state).skippedNames =
        (job.measurements.filter job.tagKeysFail).map job.skippedName ++
          (job.measurements.filter job.incomplete).map job.skippedName := by
  obtain ⟨fed, parts, stats⟩ := inv.fed
  rw [complete.1, List.append_nil] at parts
  have failed : job.measurements.filter (fun m => (state.states m).failed) =
      job.measurements.filter job.incomplete :=
    List.filter_congr fun m member => (settled_of_complete inv complete member).failed
  obtain ⟨skipped, names⟩ := @foldl_stats job (fun m => (state.states m).failed)
    (fun m => (state.states m).lines) job.measurements state.st
  rw [← parts] at stats
  rw [failed, stats] at skipped names
  unfold finalStats
  rw [stats]
  exact ⟨skipped, names⟩

theorem accounted_iff (events : List Event) (complete : (dump job events).Complete) :
    Accounted job (finalStats job (dump job events)) (dump job events).output ↔
      ∀ m ∈ job.measurements, job.tagKeysFail m = false := by
  obtain ⟨skipped, names⟩ := finalStats_eq (inv_dump events) complete
  constructor
  · intro accounted m member
    have none : (job.measurements.filter job.tagKeysFail).length = 0 := by
      have counted := skipped.symm.trans accounted.skipped
      omega
    have empty := List.filter_eq_nil_iff.mp (List.length_eq_zero_iff.mp none)
    exact Bool.eq_false_iff.mpr (empty m member)
  · intro read
    have none : job.measurements.filter job.tagKeysFail = [] :=
      List.filter_eq_nil_iff.mpr fun m member => by simp [read m member]
    rw [none] at skipped names
    rw [List.length_nil, Nat.zero_add] at skipped
    rw [List.map_nil, List.nil_append] at names
    refine ⟨skipped, names ▸ List.Perm.refl _, fun m member notNamed => ?_⟩
    refine (settled_of_complete (inv_dump events) complete member).written ?_
    by_contra isIncomplete
    refine notNamed (names ▸ List.mem_map_of_mem (List.mem_filter.mpr ⟨member, ?_⟩))
    exact Bool.not_eq_false _ ▸ isIncomplete

/-! ### Every dump can complete -/

variable (job) in
/-- Some run finishes the tasks that were handed out. -/
def CanIdle (state : State) : Prop :=
  ∃ events, (run (step job) state events).rest = state.rest ∧
    ∀ worker, (run (step job) state events).workers worker = none

def State.OnlyFirst (state : State) : Prop :=
  ∀ worker, worker ≠ 0 → state.workers worker = none

theorem WorkedOn.onlyFirst {state next : State} {m : String} (worked : WorkedOn state next 0 m)
    (onlyFirst : state.OnlyFirst) : next.OnlyFirst := fun worker different =>
  (worked.workers worker different).trans (onlyFirst worker different)

theorem canIdle_of_workOn {m : String} (task : state.workers 0 = some ⟨m, phase⟩)
    (later : CanIdle job (workOn job state 0 m phase)) : CanIdle job state := by
  obtain ⟨events, rest, idle⟩ := later
  have next : step job state (.work 0) = workOn job state 0 m phase := by rw [step, task]
  refine ⟨.work 0 :: events, ?_, ?_⟩
  · rw [run_cons, next, rest, (workedOn state 0 m phase).rest]
  · rw [run_cons, next]
    exact idle

theorem canIdle_of_idle (onlyFirst : state.OnlyFirst)
    (idle : state.workers 0 = none) : CanIdle job state := by
  refine ⟨[], rfl, fun worker => ?_⟩
  by_cases first : worker = 0
  · exact first ▸ idle
  · exact onlyFirst worker first

theorem canIdle_header {state : State} {m : String}
    (task : state.workers 0 = some ⟨m, .header⟩) (onlyFirst : state.OnlyFirst) :
    CanIdle job state :=
  canIdle_of_workOn task
    (canIdle_of_idle ((workedOn state 0 m .header).onlyFirst onlyFirst)
      (by simp [workOn, State.setWorker]))

theorem canIdle_lines {m : String} {lines : List String} {state : State}
    (task : state.workers 0 = some ⟨m, .lines lines⟩) (onlyFirst : state.OnlyFirst) :
    CanIdle job state := by
  induction lines generalizing state with
  | nil =>
    have next := (@workedOn job state 0 m (.lines [])).onlyFirst onlyFirst
    refine canIdle_of_workOn task ?_
    by_cases goesOn : ((state.states m).finish (job.outcome m).isFailed).pending = 0 ∧
        ((state.states m).finish (job.outcome m).isFailed).failed = false
    · simp only [workOn, if_pos goesOn] at next ⊢
      exact @canIdle_header job _ m (by simp [State.setWorker]) next
    · simp only [workOn, if_neg goesOn] at next ⊢
      exact canIdle_of_idle next (by simp [State.setWorker])
  | cons line rest ih =>
    refine canIdle_of_workOn task (ih (by simp [workOn, State.setWorker]) ?_)
    exact (workedOn state 0 m (.lines (line :: rest))).onlyFirst onlyFirst

/-- From any state between two measurements the dump can complete. -/
theorem exists_complete_of_idle (someWorker : 0 < job.workers) {rest : List String}
    (queue : state.rest = rest) (idle : ∀ worker, state.workers worker = none) :
    ∃ events, (run (step job) state events).Complete := by
  induction rest generalizing state with
  | nil =>
    refine ⟨[], queue, fun worker => ?_⟩
    rw [run_nil, idle worker]
    rfl
  | cons m later ih =>
    have fedRest : (feed job state 0).rest = later := by
      have free : ¬ job.workers ≤ 0 := Nat.not_le_of_lt someWorker
      unfold feed
      simp only [queue, idle, free, ↓reduceIte]
      split <;> rfl
    have fed : CanIdle job (feed job state 0) := by
      have free : ¬ job.workers ≤ 0 := Nat.not_le_of_lt someWorker
      unfold feed
      simp only [queue, idle, free, ↓reduceIte]
      split
      · exact canIdle_of_idle (fun worker _ => idle worker) (idle 0)
      · refine @canIdle_lines job m (job.emitted m) _ (by simp [State.setWorker]) ?_
        intro worker different
        simp [State.setWorker, State.setMeas, different, idle]
    obtain ⟨events, kept, nowIdle⟩ := fed
    obtain ⟨more, complete⟩ := ih (kept.trans fedRest) nowIdle
    refine ⟨.feed 0 :: (events ++ more), ?_⟩
    rw [run_cons, run_append]
    exact complete

theorem exists_complete (someWorker : 0 < job.workers) : ∃ events, (dump job events).Complete :=
  exists_complete_of_idle someWorker rfl fun _ => rfl

/-! ### One measurement -/

/-- One measurement with one row, whose tag keys can be read or not. -/
def oneMeasurement (tagKeysFail : Bool) : Job where
  db := "metrics"
  workers := 1
  measurements := ["cpu"]
  distinct := List.nodup_singleton _
  tagKeysFail _ := tagKeysFail
  lines _ := ["cpu load=1 10"]
  outcome _ := .csv
  flushFails _ := false

def oneRun : List Event := [.feed 0, .work 0, .work 0, .work 0]

theorem complete_oneMeasurement (tagKeysFail : Bool) :
    (dump (oneMeasurement tagKeysFail) oneRun).Complete := by
  refine ⟨?_, fun worker => ?_⟩
  · cases tagKeysFail <;> rfl
  · by_cases first : worker = 0
    · subst first
      cases tagKeysFail <;> rfl
    · cases tagKeysFail <;>
        simp [dump, run, oneRun, step, feed, workOn, oneMeasurement, State.setWorker, State.setMeas,
          Job.emitted, Outcome.emitted, Outcome.isFailed, MeasState.finish, first]

theorem oneMeasurement_accounted :
    Accounted (oneMeasurement false) (finalStats (oneMeasurement false)
        (dump (oneMeasurement false) oneRun)) (dump (oneMeasurement false) oneRun).output ↔
      ∀ m ∈ (oneMeasurement false).measurements, (oneMeasurement false).tagKeysFail m = false :=
  accounted_iff oneRun (complete_oneMeasurement false)

theorem tagKeys_counted_twice :
    ¬ ∀ events, (dump (oneMeasurement true) events).Complete →
      Accounted (oneMeasurement true) (finalStats (oneMeasurement true)
        (dump (oneMeasurement true) events)) (dump (oneMeasurement true) events).output := by
  intro accounted
  have counted := (accounted oneRun (complete_oneMeasurement true)).skipped
  rw [(finalStats_eq (inv_dump oneRun) (complete_oneMeasurement true)).1] at counted
  exact absurd counted (by decide)

end DbBackup.Engine.Influx.Export
