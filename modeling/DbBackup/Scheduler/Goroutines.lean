import DbBackup.Config.Days
import DbBackup.Lib.Semaphore
import DbBackup.Scheduler.DueOn

/-!
Owns the scheduler at work: one goroutine for every job (`runJob`), the calls of
`runOnceJob` they make, the channel of concurrency slots, cancellation, and
the goroutine of `Run` that waits for all of them
(`internal/scheduler/scheduler.go`, `internal/scheduler/jobs.go`).

A run is a list of events in any order; an event that is not possible changes
nothing. How long a goroutine waits, the instants at which it looks at the
clock and what an execution comes to are data of the events. Returning from a
call and the deferred release of its slot are one step.

Contract: the slots are a semaphore (`pool_run`), and the limit holds in every
run (`concurrency_limit`).
-/

set_option linter.all false

namespace DbBackup.Scheduler

open Config Lib.Run Lib.Semaphore Lib.Zone

/-! ### Jobs -/

structure Job where
  schedule : Option Schedule := none
  /-- Whether the job has a backup section. -/
  backup : Bool := true
  maintenance : Option MaintenanceConfig := none
deriving DecidableEq

def Job.isRecurring (job : Job) : Bool :=
  match job.schedule with
  | none => false
  | some s => s.isRecurring

/-- What the parts of an execution come to, and the instant at which `DueOn` is
asked. -/
structure Execution where
  backupFails : Bool := false
  maintainFails : Bool := false
  time : Int := 0
deriving DecidableEq

inductive Part where
  | maintain
  | backup
  | postBackup
deriving DecidableEq

/-- `runOnceJob` with its slot taken: the parts that are executed, and whether
failure is reported. -/
def runParts (loc : Location) (job : Job) (x : Execution) : List Part × Bool :=
  if !job.backup && job.maintenance.isSome then ([.maintain], x.maintainFails)
  else if x.backupFails then ([.backup], true)
  else if job.maintenance.isSome && dueOn loc job.maintenance x.time then
    ([.backup, .maintain, .postBackup], false)
  else ([.backup, .postBackup], false)

/-- `slotGate`, and the same checks in `runJob`; the clock is read for each. -/
def skips (edition : Edition) (loc : Location) (job : Job) (dayAt blockAt : Int) : Bool :=
  match job.schedule with
  | none => false
  | some s => !dayAllowed edition s loc dayAt || blocked edition s loc blockAt

/-! ### The scheduler -/

inductive Phase where
  /-- At the head of the loop of `runJob`. -/
  | looping
  | waiting
  /-- After the wait, before the checks of the day. -/
  | ready
  /-- In `runOnceJob`, before the first `select`. -/
  | trying
  | queued
  /-- A slot is taken, or none is needed. -/
  | admitted
  | executing
  | done
deriving DecidableEq

/-- What happened to a call. -/
inductive Happening where
  | took
  | executed
  | freed
  | cancelled
  | reported (failed : Bool)
deriving DecidableEq

inductive MainPhase where
  | waiting
  | stopping
  | exited (code : Nat)
deriving DecidableEq

structure State (n : Nat) where
  main : MainPhase := .waiting
  /-- Whether the context is done. -/
  cancelled : Bool := false
  phase : Fin n → Phase := fun _ => .looping
  /-- How many calls a goroutine has returned from; it numbers the next one. -/
  calls : Fin n → Nat := fun _ => 0
  /-- The values in the channel of slots. -/
  filled : Nat := 0
  failed : Nat := 0
  log : List ((Fin n × Nat) × Happening) := []

inductive Event (n : Nat) where
  | pause (i : Fin n) (wait : Int)
  | wake (i : Fin n)
  | stop (i : Fin n)
  | check (i : Fin n) (dayAt blockAt : Int)
  | tryTake (i : Fin n)
  | take (i : Fin n)
  | giveUp (i : Fin n)
  | start (i : Fin n)
  | finish (i : Fin n) (x : Execution)
  | signal
  | exit

/-- The configuration: the jobs, the concurrency (zero for none), and what the
checks of a day read. -/
structure Setup (n : Nat) where
  jobs : Fin n → Job
  concurrency : Nat
  edition : Edition
  loc : Location

section

variable {n : Nat} (setup : Setup n)

def State.goto (s : State n) (i : Fin n) (phase : Phase) : State n :=
  { s with phase := Function.update s.phase i phase }

def State.note (s : State n) (i : Fin n) (happenings : List Happening) : State n :=
  { s with log := s.log ++ happenings.map fun h => ((i, s.calls i), h) }

/-- After a skipped or finished turn: again, or the end of the goroutine. -/
def afterTurn (i : Fin n) : Phase := if (setup.jobs i).isRecurring then .looping else .done

/-- The end of a call. `runJob` drops what the call reports. -/
def State.returned (s : State n) (i : Fin n) : State n :=
  { s.goto i (afterTurn setup i) with calls := Function.update s.calls i (s.calls i + 1) }

def anyRecurring : Bool := (List.finRange n).any fun i => (setup.jobs i).isRecurring

def State.allDone (s : State n) : Bool := (List.finRange n).all fun i => s.phase i = .done

def State.exitCode (s : State n) : Nat := if 0 < s.failed then 1 else 0

def step (s : State n) : Event n → State n
  | .pause i wait =>
    if s.phase i = .looping then s.goto i (if 0 < wait then .waiting else .ready) else s
  | .wake i => if s.phase i = .waiting then s.goto i .ready else s
  | .stop i => if s.phase i = .waiting ∧ s.cancelled = true then s.goto i .done else s
  | .check i dayAt blockAt =>
    if s.phase i = .ready then
      if skips setup.edition setup.loc (setup.jobs i) dayAt blockAt then
        s.goto i (afterTurn setup i)
      else s.goto i .trying
    else s
  | .tryTake i =>
    if s.phase i = .trying then
      if setup.concurrency = 0 then s.goto i .admitted
      else if s.filled < setup.concurrency then
        { (s.note i [.took]).goto i .admitted with filled := s.filled + 1 }
      else s.goto i .queued
    else s
  | .take i =>
    if s.phase i = .queued ∧ s.filled < setup.concurrency then
      { (s.note i [.took]).goto i .admitted with filled := s.filled + 1 }
    else s
  | .giveUp i =>
    if s.phase i = .queued ∧ s.cancelled = true then
      (s.note i [.cancelled, .reported false]).returned setup i
    else s
  | .start i => if s.phase i = .admitted then (s.note i [.executed]).goto i .executing else s
  | .finish i x =>
    if s.phase i = .executing then
      let failed := (runParts setup.loc (setup.jobs i) x).2
      if setup.concurrency = 0 then (s.note i [.reported failed]).returned setup i
      else if 0 < s.filled then
        { (s.note i [.freed, .reported failed]).returned setup i with filled := s.filled - 1 }
      else s
    else s
  | .signal =>
    if s.main = .waiting then { s with main := .stopping, cancelled := true } else s
  | .exit =>
    if s.allDone = true ∧ (s.main = .stopping ∨ s.main = .waiting ∧ anyRecurring setup = false) then
      { s with main := .exited s.exitCode }
    else s

/-! ### The slots as a semaphore -/

def Phase.stage : Phase → Stage
  | .queued => .queued
  | .admitted => .inside
  | .executing => .inside
  | _ => .outside

def State.pool (s : State n) : Pool (Fin n) where
  filled := s.filled
  stage := fun i => (s.phase i).stage

variable {setup}

theorem pool_goto (s : State n) (i : Fin n) (phase : Phase) :
    (s.goto i phase).pool = { s.pool with stage := s.pool.place i phase.stage } := by
  unfold State.pool Pool.place
  congr 1
  funext other
  show (Function.update s.phase i phase other).stage = _
  by_cases same : other = i
  · simp [same]
  · simp [same]

theorem pool_goto_same {s : State n} {i : Fin n} {phase : Phase}
    (same : phase.stage = (s.phase i).stage) : (s.goto i phase).pool = s.pool := by
  have kept : s.pool.place i phase.stage = s.pool.stage := by
    unfold Pool.place
    rw [same]
    exact Function.update_eq_self i s.pool.stage
  rw [pool_goto, kept]

theorem stage_afterTurn (setup : Setup n) (i : Fin n) : (afterTurn setup i).stage = .outside := by
  unfold afterTurn
  split <;> rfl

/-- Every event is a move of the semaphore, or none. -/
theorem pool_step (limited : 0 < setup.concurrency) (s : State n) (event : Event n) :
    ∃ moves, (step setup s event).pool = run (Pool.step setup.concurrency) s.pool moves := by
  have limit : setup.concurrency ≠ 0 := by omega
  have stay {s' : State n} (same : s'.pool = s.pool) :
      ∃ moves, s'.pool = run (Pool.step setup.concurrency) s.pool moves := ⟨[], same⟩
  have taken {i : Fin n} : State.pool { (s.note i [.took]).goto i .admitted with
      filled := s.filled + 1 } = { filled := s.filled + 1, stage := s.pool.place i .inside } :=
    congrArg (fun pool : Pool (Fin n) => { pool with filled := s.filled + 1 })
      (pool_goto (s.note i [.took]) i .admitted)
  cases event with
  | pause i wait =>
    rw [step]
    split
    · rename_i looping
      apply stay
      apply pool_goto_same
      rw [looping]
      split <;> rfl
    · exact stay rfl
  | wake i =>
    rw [step]
    split
    · rename_i waiting
      exact stay (pool_goto_same (by rw [waiting]; rfl))
    · exact stay rfl
  | stop i =>
    rw [step]
    split
    · rename_i possible
      exact stay (pool_goto_same (by rw [possible.1]; rfl))
    · exact stay rfl
  | check i dayAt blockAt =>
    rw [step]
    split
    · rename_i ready
      split
      · exact stay (pool_goto_same (by rw [ready, stage_afterTurn]; rfl))
      · exact stay (pool_goto_same (by rw [ready]; rfl))
    · exact stay rfl
  | tryTake i =>
    rw [step]
    split
    · rename_i trying
      have outside : s.pool.stage i = .outside := by
        show (s.phase i).stage = .outside
        rw [trying]
        rfl
      refine ⟨[.tryTake i], ?_⟩
      rw [run_cons, run_nil, Pool.step, if_pos outside]
      by_cases room : s.filled < setup.concurrency
      · rw [if_pos room, if_pos (show s.pool.filled < setup.concurrency from room)]
        exact taken
      · rw [if_neg room, if_neg (show ¬ s.pool.filled < setup.concurrency from room)]
        exact pool_goto s i .queued
    · exact stay rfl
  | take i =>
    rw [step]
    split
    · rename_i possible
      have queued : s.pool.stage i = .queued := by
        show (s.phase i).stage = .queued
        rw [possible.1]
        rfl
      refine ⟨[.take i], ?_⟩
      rw [run_cons, run_nil, Pool.step,
        if_pos ⟨queued, show s.pool.filled < setup.concurrency from possible.2⟩]
      exact taken
    · exact stay rfl
  | giveUp i =>
    rw [step]
    split
    · rename_i possible
      have queued : s.pool.stage i = .queued := by
        show (s.phase i).stage = .queued
        rw [possible.1]
        rfl
      refine ⟨[.giveUp i], ?_⟩
      rw [run_cons, run_nil, Pool.step, if_pos queued, ← stage_afterTurn setup i]
      exact pool_goto s i (afterTurn setup i)
    · exact stay rfl
  | start i =>
    rw [step]
    split
    · rename_i admitted
      exact stay (@pool_goto_same n (s.note i [.executed]) i .executing
        (by show _ = (s.phase i).stage; rw [admitted]; rfl))
    · exact stay rfl
  | finish i x =>
    rw [step]
    split
    · rename_i executing
      have inside : s.pool.stage i = .inside := by
        show (s.phase i).stage = .inside
        rw [executing]
        rfl
      simp only
      split
      · rename_i some
        refine ⟨[.release i], ?_⟩
        rw [run_cons, run_nil, Pool.step, if_pos ⟨inside, show 0 < s.pool.filled from some⟩,
          ← stage_afterTurn setup i]
        exact congrArg (fun pool : Pool (Fin n) => { pool with filled := s.filled - 1 })
          (pool_goto s i (afterTurn setup i))
      · exact stay rfl
    · exact stay rfl
  | signal =>
    rw [step]
    split <;> exact stay rfl
  | exit =>
    rw [step]
    split <;> exact stay rfl

theorem pool_run (limited : 0 < setup.concurrency) (s : State n) (events : List (Event n)) :
    ∃ moves, (run (step setup) s events).pool = run (Pool.step setup.concurrency) s.pool moves := by
  induction events generalizing s with
  | nil => exact ⟨[], rfl⟩
  | cons event rest ih =>
    obtain ⟨first, isFirst⟩ := pool_step limited s event
    obtain ⟨later, isLater⟩ := ih (step setup s event)
    refine ⟨first ++ later, ?_⟩
    rw [run_cons, isLater, isFirst, run_append]

theorem balanced_reached (limited : 0 < setup.concurrency) (events : List (Event n)) :
    Balanced setup.concurrency (run (step setup) {} events).pool := by
  obtain ⟨moves, isRun⟩ := pool_run limited {} events
  rw [isRun]
  refine balanced_run ⟨?_, Nat.zero_le _⟩ moves
  show 0 = (Pool.holders _).card
  rw [eq_comm, Finset.card_eq_zero, Finset.eq_empty_iff_forall_notMem]
  intro i member
  have inside : Phase.looping.stage = .inside := mem_holders.mp member
  cases inside

/-! ### What happens to a call -/

/-- What happened to a call so far. -/
def State.history (s : State n) (call : Fin n × Nat) : List Happening :=
  (s.log.filter fun entry => entry.1 = call).map Prod.snd

/-- What has happened to the current call of a goroutine. -/
def Phase.soFar : Phase → List Happening
  | .admitted => [.took]
  | .executing => [.took, .executed]
  | _ => []

/-- A call is cancelled in the queue, or takes a slot, executes its job and frees
the slot. -/
def Complete (history : List Happening) : Prop :=
  history = [.cancelled, .reported false] ∨
    ∃ failed, history = [.took, .executed, .freed, .reported failed]

/-- Every call that returned is complete, and the one at work is on its way. -/
def Accounted (s : State n) : Prop :=
  ∀ i k, (k < s.calls i → Complete (s.history (i, k))) ∧
    (k = s.calls i → s.history (i, k) = (s.phase i).soFar) ∧ (s.calls i < k → s.history (i, k) = [])

theorem history_note (s : State n) (i : Fin n) (happenings : List Happening) (call : Fin n × Nat) :
    (s.note i happenings).history call =
      if call = (i, s.calls i) then s.history call ++ happenings else s.history call := by
  unfold State.history State.note
  rw [List.filter_append, List.map_append, List.filter_map, List.map_map]
  by_cases same : call = (i, s.calls i)
  · rw [if_pos same, same]
    simp [Function.comp_def]
  · rw [if_neg same]
    have other : ¬ (i, s.calls i) = call := fun equal => same equal.symm
    simp [Function.comp_def, other]

section Account

variable {s : State n} {i : Fin n} (accounted : Accounted s)

include accounted

/-- Noting what happens and going on to a phase that expects it. -/
theorem accounted_goto {happenings : List Happening} {phase : Phase}
    (expected : phase.soFar = (s.phase i).soFar ++ happenings) :
    Accounted ((s.note i happenings).goto i phase) := by
  intro j k
  obtain ⟨past, present, future⟩ := accounted j k
  have isHistory : ((s.note i happenings).goto i phase).history (j, k) =
      if (j, k) = (i, s.calls i) then s.history (j, k) ++ happenings else s.history (j, k) :=
    history_note s i happenings (j, k)
  have isPhase : ((s.note i happenings).goto i phase).phase j =
      if j = i then phase else s.phase j := Function.update_apply ..
  rw [isHistory, isPhase]
  show (k < s.calls j → _) ∧ (k = s.calls j → _) ∧ (s.calls j < k → _)
  by_cases same : j = i
  · subst same
    refine ⟨fun before => ?_, fun isNow => ?_, fun after => ?_⟩
    · rw [if_neg (by simp; omega)]
      exact past before
    · rw [if_pos (by simp [isNow]), if_pos rfl, present isNow, expected]
    · rw [if_neg (by simp; omega)]
      exact future after
  · rw [if_neg (by simp [same]), if_neg same]
    exact ⟨past, present, future⟩

/-- Noting what happens and returning from the call it completes. -/
theorem accounted_returned {happenings : List Happening}
    (complete : Complete ((s.phase i).soFar ++ happenings)) :
    Accounted ((s.note i happenings).returned setup i) := by
  intro j k
  obtain ⟨past, present, future⟩ := accounted j k
  have isHistory : ((s.note i happenings).returned setup i).history (j, k) =
      if (j, k) = (i, s.calls i) then s.history (j, k) ++ happenings else s.history (j, k) :=
    history_note s i happenings (j, k)
  have isPhase : ((s.note i happenings).returned setup i).phase j =
      if j = i then afterTurn setup i else s.phase j := Function.update_apply ..
  have isCount : ((s.note i happenings).returned setup i).calls j =
      if j = i then s.calls i + 1 else s.calls j := Function.update_apply ..
  rw [isHistory, isPhase, isCount]
  by_cases same : j = i
  · subst same
    rw [if_pos rfl, if_pos rfl]
    refine ⟨fun before => ?_, fun isNow => ?_, fun after => ?_⟩
    · by_cases isNow : k = s.calls j
      · rw [if_pos (by simp [isNow]), present isNow]
        exact complete
      · rw [if_neg (by simp [isNow])]
        exact past (by omega)
    · rw [if_neg (by simp; omega), future (by omega)]
      unfold afterTurn
      split <;> rfl
    · rw [if_neg (by simp; omega)]
      exact future (by omega)
  · rw [if_neg (show ¬ (j, k) = (i, s.calls i) by simp [same]), if_neg same, if_neg same]
    exact ⟨past, present, future⟩

theorem accounted_goto_quiet {phase : Phase} (expected : phase.soFar = (s.phase i).soFar) :
    Accounted (s.goto i phase) := by
  have quiet : s.note i [] = s := by simp [State.note]
  have moved : Accounted ((s.note i []).goto i phase) :=
    accounted_goto accounted (expected.trans (List.append_nil _).symm)
  rwa [quiet] at moved

end Account

theorem accounted_step (limited : 0 < setup.concurrency) (s : State n) (event : Event n)
    (accounted : Accounted s) : Accounted (step setup s event) := by
  have limit : setup.concurrency ≠ 0 := by omega
  have soFar_afterTurn {i : Fin n} : (afterTurn setup i).soFar = [] := by
    unfold afterTurn
    split <;> rfl
  cases event with
  | pause i wait =>
    rw [step]
    split
    · rename_i looping
      apply accounted_goto_quiet accounted
      rw [looping]
      split <;> rfl
    · exact accounted
  | wake i =>
    rw [step]
    split
    · rename_i waiting
      exact accounted_goto_quiet accounted (by rw [waiting]; rfl)
    · exact accounted
  | stop i =>
    rw [step]
    split
    · rename_i possible
      exact accounted_goto_quiet accounted (by rw [possible.1]; rfl)
    · exact accounted
  | check i dayAt blockAt =>
    rw [step]
    split
    · rename_i ready
      split
      · exact accounted_goto_quiet accounted (by rw [ready, soFar_afterTurn]; rfl)
      · exact accounted_goto_quiet accounted (by rw [ready]; rfl)
    · exact accounted
  | tryTake i =>
    rw [step]
    split
    · rename_i trying
      split
      · exact @accounted_goto _ s i accounted [.took] .admitted (by rw [trying]; rfl)
      · exact accounted_goto_quiet accounted (by rw [trying]; rfl)
    · exact accounted
  | take i =>
    rw [step]
    split
    · rename_i possible
      exact @accounted_goto _ s i accounted [.took] .admitted (by rw [possible.1]; rfl)
    · exact accounted
  | giveUp i =>
    rw [step]
    split
    · rename_i possible
      apply accounted_returned accounted
      rw [possible.1]
      exact Or.inl rfl
    · exact accounted
  | start i =>
    rw [step]
    split
    · rename_i admitted
      exact accounted_goto accounted (by rw [admitted]; rfl)
    · exact accounted
  | finish i x =>
    rw [step]
    split
    · rename_i executing
      simp only
      split
      · have complete : Complete ((s.phase i).soFar ++
            [Happening.freed, .reported (runParts setup.loc (setup.jobs i) x).2]) := by
          rw [executing]
          exact Or.inr ⟨_, rfl⟩
        exact accounted_returned accounted complete
      · exact accounted
    · exact accounted
  | signal =>
    rw [step]
    split <;> exact accounted
  | exit =>
    rw [step]
    split <;> exact accounted

theorem accounted_reached (limited : 0 < setup.concurrency) (events : List (Event n)) :
    Accounted (run (step setup) {} events) := by
  have initially : Accounted ({} : State n) := by
    intro i k
    exact ⟨fun before => absurd before (Nat.not_lt_zero k), fun _ => rfl, fun _ => rfl⟩
  exact invariant_run (accounted_step limited) initially events

theorem mem_history {s : State n} {call : Fin n × Nat} {happening : Happening} :
    happening ∈ s.history call ↔ (call, happening) ∈ s.log := by
  unfold State.history
  rw [List.mem_map]
  constructor
  · rintro ⟨⟨_, _⟩, member, rfl⟩
    obtain ⟨logged, same⟩ := List.mem_filter.mp member
    rwa [← of_decide_eq_true same]
  · intro logged
    exact ⟨(call, happening), List.mem_filter.mpr ⟨logged, decide_eq_true rfl⟩, rfl⟩

/-- A call that was cancelled did nothing else, and only a slot that was taken is
freed. -/
theorem Accounted.history {s : State n} (accounted : Accounted s) (call : Fin n × Nat) :
    (.cancelled ∈ s.history call →
      .took ∉ s.history call ∧ .executed ∉ s.history call ∧ .freed ∉ s.history call) ∧
    (.freed ∈ s.history call → .took ∈ s.history call) := by
  obtain ⟨past, present, future⟩ := accounted call.1 call.2
  rcases Nat.lt_trichotomy call.2 (s.calls call.1) with before | isNow | after
  · rcases past before with isHistory | ⟨failed, isHistory⟩ <;> rw [isHistory] <;> simp
  · rw [present isNow]
    cases s.phase call.1 <;> simp [Phase.soFar]
  · rw [future after]
    simp

/-! ### The limit -/

/-- The goroutines whose call is between taking a slot and returning. -/
def State.active (s : State n) : Finset (Fin n) :=
  Finset.univ.filter fun i => s.phase i = .admitted ∨ s.phase i = .executing

theorem active_eq_holders (s : State n) : s.active = s.pool.holders := by
  ext i
  rw [mem_holders, State.active, Finset.mem_filter]
  show _ ↔ (s.phase i).stage = .inside
  cases s.phase i <;> simp [Phase.stage]

/-- In every run, no more calls are active than the concurrency; a call cancelled
in the queue neither executes its job nor frees a slot, and a slot that is freed
was taken by the same call; and when no call is active, every slot is free. -/
theorem concurrency_limit (setup : Setup n) (limited : 0 < setup.concurrency)
    (events : List (Event n)) :
    let s := run (step setup) {} events
    s.active.card ≤ setup.concurrency ∧
      (∀ call, (call, .cancelled) ∈ s.log →
        (call, .took) ∉ s.log ∧ (call, .executed) ∉ s.log ∧ (call, .freed) ∉ s.log) ∧
      (∀ call, (call, .freed) ∈ s.log → (call, .took) ∈ s.log) ∧
      (s.active = ∅ → s.filled = 0) := by
  intro s
  have balanced : Balanced setup.concurrency s.pool := balanced_reached limited events
  have accounted : Accounted s := accounted_reached limited events
  refine ⟨?_, fun call => ?_, fun call => ?_, fun nobody => ?_⟩
  · rw [active_eq_holders, ← balanced.count]
    exact balanced.bounded
  · simpa only [mem_history] using (accounted.history call).1
  · simpa only [mem_history] using (accounted.history call).2
  · have noHolder : s.pool.filled = 0 := by
      rw [balanced.count, ← active_eq_holders, nobody]
      rfl
    exact noHolder

/-- Two jobs and one slot: the second job is cancelled in the queue while the
first executes. -/
theorem concurrency_limit_two :
    let setup : Setup 2 :=
      { jobs := fun _ => {}, concurrency := 1, edition := .community, loc := fixedZone 0 }
    let s := run (step setup) {} [.pause 0 0, .pause 1 0, .check 0 0 0, .check 1 0 0, .tryTake 0,
      .start 0, .tryTake 1, .signal, .giveUp 1]
    s.active = {0} ∧ s.active.card ≤ 1 ∧ ((1, 0), .executed) ∉ s.log := by
  intro setup s
  have limit := concurrency_limit setup (by decide) [.pause 0 0, .pause 1 0, .check 0 0 0,
    .check 1 0 0, .tryTake 0, .start 0, .tryTake 1, .signal, .giveUp 1]
  have cancelled : ((1, 0), .cancelled) ∈ s.log := by decide +kernel
  exact ⟨by decide +kernel, limit.1, (limit.2.1 (1, 0) cancelled).2.1⟩

end

end DbBackup.Scheduler
