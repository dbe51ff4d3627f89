import DbBackup.Scheduler.Goroutines

/-!
Owns the exit codes of the two ways to work through the jobs: `Run`, with a
goroutine for every job, and `RunOnce`, one job after the other
(`internal/scheduler/scheduler.go`).

Contract: `RunOnce` returns one exactly when a call reported failure; `Run`
counts no failure and always returns zero (`exited_zero`), so it follows the rule
only where no call fails (`exitCode_iff`).
-/

namespace DbBackup.Scheduler

open Config Lib.Run Lib.Zone

section

variable {n : Nat} (setup : Setup n)

/-! ### `RunOnce` -/

/-- The instant at which `RunOnce` comes to a job, and what executing it comes
to. -/
structure Turn where
  now : Int
  execution : Execution
deriving DecidableEq

/-- The state of the loop of `RunOnce`. -/
structure Tally where
  filled : Nat := 0
  failed : Nat := 0
deriving DecidableEq

/-- Whether the call for a job reports failure. -/
def reportsFailure (turn : Fin n → Turn) (i : Fin n) : Bool :=
  (runParts setup.loc (setup.jobs i) (turn i).execution).2

def slotGate (turn : Fin n → Turn) (i : Fin n) : Bool :=
  skips setup.edition setup.loc (setup.jobs i) (turn i).now (turn i).now

/-- One round of the loop. Its context is never done: a call that finds no slot
waits for ever. -/
def onceTurn (turn : Fin n → Turn) (tally : Tally) (i : Fin n) : Option Tally :=
  if slotGate setup turn i then some tally
  else
    let counted := if reportsFailure setup turn i then tally.failed + 1 else tally.failed
    if setup.concurrency = 0 then some { tally with failed := counted }
    else if tally.filled < setup.concurrency then
      let taken := tally.filled + 1
      some { filled := taken - 1, failed := counted }
    else none

def runOnce (turn : Fin n → Turn) : Option Nat :=
  ((List.finRange n).foldlM (onceTurn setup turn) {}).map fun tally =>
    if 0 < tally.failed then 1 else 0

variable {setup} {turn : Fin n → Turn}

/-- Whether `RunOnce` makes a call for a job, and the call reports failure. -/
def callFails (setup : Setup n) (turn : Fin n → Turn) (i : Fin n) : Bool :=
  !slotGate setup turn i && reportsFailure setup turn i

theorem onceTurn_eq {tally : Tally} (free : tally.filled = 0) (i : Fin n) :
    onceTurn setup turn tally i = some { tally with
      failed := tally.failed + if callFails setup turn i then 1 else 0 } := by
  rw [onceTurn, callFails]
  cases slotGate setup turn i with
  | true => rfl
  | false =>
    by_cases unlimited : setup.concurrency = 0
    · cases reportsFailure setup turn i <;> simp [unlimited]
    · have room : tally.filled < setup.concurrency := by omega
      cases reportsFailure setup turn i <;> simp [unlimited, room]

theorem foldlM_onceTurn (is : List (Fin n)) {tally : Tally} (free : tally.filled = 0) :
    is.foldlM (onceTurn setup turn) tally =
      some { tally with failed := tally.failed + is.countP (callFails setup turn) } := by
  induction is generalizing tally with
  | nil => rfl
  | cons i rest ih =>
    rw [List.foldlM_cons, onceTurn_eq free]
    refine (@ih ⟨tally.filled, tally.failed + if callFails setup turn i then 1 else 0⟩
      free).trans ?_
    rw [List.countP_cons, Nat.add_assoc, Nat.add_comm (ite _ _ _)]

/-- `RunOnce` comes to its end, and reports whether a call failed. -/
theorem runOnce_eq (setup : Setup n) (turn : Fin n → Turn) :
    ∃ code, runOnce setup turn = some code ∧ (code = 1 ↔ ∃ i, callFails setup turn i = true) := by
  have counted : 0 < (List.finRange n).countP (callFails setup turn) ↔
      ∃ i, callFails setup turn i = true := by
    rw [List.countP_pos_iff]
    simp
  rw [runOnce, foldlM_onceTurn _ rfl, Option.map_some]
  refine ⟨_, rfl, ?_⟩
  rw [← counted]
  simp

/-! ### `Run` -/

/-- No failure has been counted, and who has exited returned zero. -/
def Uncounted (s : State n) : Prop := s.failed = 0 ∧ ∀ code, s.main = .exited code → code = 0

theorem uncounted_step (s : State n) (event : Event n) (uncounted : Uncounted s) :
    Uncounted (step setup s event) := by
  have kept {s' : State n} (sameCount : s'.failed = s.failed) (sameMain : s'.main = s.main) :
      Uncounted s' := by
    unfold Uncounted
    rw [sameCount, sameMain]
    exact uncounted
  cases event with
  | signal =>
    rw [step]
    split
    · refine ⟨uncounted.1, ?_⟩
      rintro code isCode
      cases isCode
    · exact uncounted
  | exit =>
    rw [step]
    split
    · refine ⟨uncounted.1, ?_⟩
      rintro code isCode
      cases isCode
      rw [State.exitCode, uncounted.1]
      rfl
    · exact uncounted
  | _ =>
    rw [step]
    repeat' split
    all_goals exact kept rfl rfl

theorem exited_zero (events : List (Event n)) {code : Nat}
    (exited : (run (step setup) {} events).main = .exited code) : code = 0 := by
  have initially : Uncounted ({} : State n) := by
    refine ⟨rfl, ?_⟩
    rintro code isCode
    cases isCode
  exact (invariant_run uncounted_step initially events).2 code exited

/-- `RunOnce` always returns one exactly when one of the calls it makes reports
failure; `Run` follows this rule in exactly the runs in which no call reports
failure. -/
theorem exitCode_iff (setup : Setup n) (turn : Fin n → Turn) (events : List (Event n)) {code : Nat}
    (exited : (run (step setup) {} events).main = .exited code) :
    (∃ once, runOnce setup turn = some once ∧
      (once = 1 ↔ ∃ i, slotGate setup turn i = false ∧ reportsFailure setup turn i = true)) ∧
    ((code = 1 ↔ ∃ call, (call, .reported true) ∈ (run (step setup) {} events).log) ↔
      ∀ call, (call, .reported true) ∉ (run (step setup) {} events).log) := by
  constructor
  · simpa [callFails] using runOnce_eq setup turn
  · rw [exited_zero events exited]
    simp

/-- One job without a schedule. -/
def oneJob : Setup 1 :=
  { jobs := fun _ => {}, concurrency := 0, edition := .community, loc := fixedZone 0 }

/-- A job that succeeds. -/
theorem exitCode_iff_success :
    ∃ events code, (run (step oneJob) {} events).main = .exited code ∧
      (code = 1 ↔ ∃ call, (call, .reported true) ∈ (run (step oneJob) {} events).log) := by
  have exited : (run (step oneJob) {} [.pause 0 0, .check 0 0 0, .tryTake 0, .start 0, .finish 0 {},
      .exit]).main = .exited 0 := by decide +kernel
  refine ⟨_, 0, exited, ((exitCode_iff oneJob (fun _ => ⟨0, {}⟩) _ exited).2).mpr ?_⟩
  have isLog : (run (step oneJob) {} [.pause 0 0, .check 0 0 0, .tryTake 0, .start 0, .finish 0 {},
      .exit]).log = [((0, 0), .executed), ((0, 0), .reported false)] := by decide +kernel
  rw [isLog]
  simp

/-- A job whose backup fails: `RunOnce` returns one, `Run` zero. -/
theorem failure_exits_zero :
    let failing : Execution := { backupFails := true }
    let s := run (step oneJob) {} [.pause 0 0, .check 0 0 0, .tryTake 0, .start 0, .finish 0 failing,
      .exit]
    runOnce oneJob (fun _ => ⟨0, failing⟩) = some 1 ∧ s.main = .exited 0 ∧
      ((0, 0), .reported true) ∈ s.log := by
  decide +kernel

end

end DbBackup.Scheduler
