import DbBackup.Lib.Cover
import DbBackup.Lib.Run

/-!
Owns the positions of an incremental chain while clients keep committing: the
`since` lookup of `Run`, the dump pipeline, and the call of `GetPosition` that
fills the sidecar (`internal/scheduler/runner/runner.go`).

The source is a position-anchored engine (a MySQL binlog, a MongoDB oplog): an
append-only log whose position is its length. The steps of a run come in the
order of the source, and clients commit between any two of them, so a history
is a list of commits and of runner steps. Contract: exactly which histories lose
a change of the chain.

Does not own how an engine prints or replays the entries of its log; `apply`
stands for one replayed change.
-/

set_option linter.all false

namespace DbBackup.Runner

open Lib.Cover Lib.Run

inductive Data (Db Change : Type) where
  | full (db : Db)
  | increment (entries : List Change)

/-- A dump with the part of the log it stands for. -/
structure Dump (Db Change : Type) where
  data : Data Db Change
  window : Window Nat

/-- An uploaded dump with the `Position` of its sidecar. -/
structure Backup (Db Change : Type) extends Dump Db Change where
  position : Nat

/-- The last step a run has taken. -/
inductive Phase (Db Change : Type) where
  | idle
  | dumped (dump : Dump Db Change)
  | uploaded (dump : Dump Db Change)

structure System (Db Change : Type) where
  log : List Change
  phase : Phase Db Change
  stored : List (Backup Db Change)

/-- A client commits, or the runner takes its next step. -/
inductive Event (Change : Type) where
  | commit (change : Change)
  | advance
deriving DecidableEq

variable {Db Change : Type}

/-! ### The run -/

/-- The database after a log, from the state it had when the log began. -/
def stateOf (apply : Db → Change → Db) (origin : Db) (log : List Change) : Db :=
  log.foldl apply origin

/-- The newest recorded position. -/
def findLastPosition (stored : List (Backup Db Change)) : Option Nat :=
  stored.getLast?.map Backup.position

/-- A full dump where no position is found, else the entries since that position. -/
def takeDump (apply : Db → Change → Db) (origin : Db) (system : System Db Change) :
    Dump Db Change :=
  match findLastPosition system.stored with
  | none =>
    { data := .full (stateOf apply origin system.log)
      window := { start := 0, stop := system.log.length } }
  | some since =>
    { data := .increment (system.log.drop since)
      window := { start := since, stop := system.log.length } }

def step (apply : Db → Change → Db) (origin : Db) (system : System Db Change) :
    Event Change → System Db Change
  | .commit change => { system with log := system.log ++ [change] }
  | .advance =>
    match system.phase with
    | .idle => { system with phase := .dumped (takeDump apply origin system) }
    | .dumped dump => { system with phase := .uploaded dump }
    | .uploaded dump =>
      { system with
        phase := .idle
        stored := system.stored ++ [{ toDump := dump, position := system.log.length }] }

def systemAfter (apply : Db → Change → Db) (origin : Db) (events : List (Event Change)) :
    System Db Change :=
  run (step apply origin) { log := [], phase := .idle, stored := [] } events

/-! ### The restore -/

def restoreOne (apply : Db → Change → Db) (db : Db) (backup : Backup Db Change) : Db :=
  match backup.data with
  | .full dumped => dumped
  | .increment entries => entries.foldl apply db

def restore (apply : Db → Change → Db) (origin : Db) (stored : List (Backup Db Change)) : Db :=
  stored.foldl (restoreOne apply) origin

/-- The end of the last read, starting from an earlier one. -/
def lastStop (stop : Nat) (stored : List (Backup Db Change)) : Nat :=
  (stored.getLast?.map fun backup => backup.window.stop).getD stop

def Gapless (stored : List (Backup Db Change)) : Prop :=
  stored.IsChain fun backup next => Meets backup.window next.window

/-- The chain restores the log up to its last read, and no entry lies between
the end of one backup and the start of the next. -/
structure NoChangeLost (apply : Db → Change → Db) (origin : Db) (system : System Db Change) :
    Prop where
  restored : restore apply origin system.stored =
    stateOf apply origin (system.log.take (lastStop 0 system.stored))
  gapless : Gapless system.stored

/-! ### Commits inside a run -/

inductive Stage where
  | idle
  | dumped
  | uploaded
deriving DecidableEq

/-- For each completed run of a history, what clients commit between its dump
and its `GetPosition`; the stage and the commits so far are those of the run
under way. -/
def lateCommits : Stage → List Change → List (Event Change) → List (List Change)
  | _, _, [] => []
  | .idle, _, .commit _ :: rest => lateCommits .idle [] rest
  | .idle, _, .advance :: rest => lateCommits .dumped [] rest
  | .dumped, late, .commit change :: rest => lateCommits .dumped (late ++ [change]) rest
  | .dumped, late, .advance :: rest => lateCommits .uploaded late rest
  | .uploaded, late, .commit change :: rest => lateCommits .uploaded (late ++ [change]) rest
  | .uploaded, late, .advance :: rest => late :: lateCommits .idle [] rest

def Phase.stage : Phase Db Change → Stage
  | .idle => .idle
  | .dumped _ => .dumped
  | .uploaded _ => .uploaded

/-! ### Invariants of a history -/

/-- The data is what the log holds in the window. -/
def Dump.Faithful (apply : Db → Change → Db) (origin : Db) (log : List Change)
    (dump : Dump Db Change) : Prop :=
  dump.window.start ≤ dump.window.stop ∧ dump.window.stop ≤ log.length ∧
    match dump.data with
    | .full db => db = stateOf apply origin (log.take dump.window.stop)
    | .increment entries => entries = (log.take dump.window.stop).drop dump.window.start

/-- The dump starts at the last recorded position, or at the origin of the log. -/
def Dump.Continues (stored : List (Backup Db Change)) (dump : Dump Db Change) : Prop :=
  match stored.getLast? with
  | none => dump.window.start = 0
  | some last => dump.window.start = last.position

def Phase.dump? : Phase Db Change → Option (Dump Db Change)
  | .idle => none
  | .dumped dump => some dump
  | .uploaded dump => some dump

structure Consistent (apply : Db → Change → Db) (origin : Db) (system : System Db Change) :
    Prop where
  faithful : ∀ backup ∈ system.stored, backup.Faithful apply origin system.log
  recorded : ∀ backup ∈ system.stored,
    backup.window.stop ≤ backup.position ∧ backup.position ≤ system.log.length
  anchored : ∀ first ∈ system.stored.head?, first.window.start = 0
  linked : system.stored.IsChain fun backup next => next.window.start = backup.position
  running : ∀ dump ∈ system.phase.dump?,
    dump.Faithful apply origin system.log ∧ dump.Continues system.stored

section Histories

variable {apply : Db → Change → Db} {origin : Db} {system : System Db Change}

theorem step_idle (idle : system.phase = .idle) : step apply origin system .advance =
      { system with phase := .dumped (takeDump apply origin system) } := by
  simp [step, idle]

theorem step_dumped {dump : Dump Db Change} (dumped : system.phase = .dumped dump) :
    step apply origin system .advance = { system with phase := .uploaded dump } := by
  simp [step, dumped]

theorem step_uploaded {dump : Dump Db Change} (uploaded : system.phase = .uploaded dump) :
    step apply origin system .advance =
      { system with
        phase := .idle
        stored := system.stored ++ [{ toDump := dump, position := system.log.length }] } := by
  simp [step, uploaded]

variable {log : List Change}

theorem Dump.Faithful.commit {dump : Dump Db Change}
    (faithful : dump.Faithful apply origin log) (change : Change) :
    dump.Faithful apply origin (log ++ [change]) := by
  obtain ⟨ordered, within, data⟩ := faithful
  refine ⟨ordered, by simp; omega, ?_⟩
  rwa [List.take_append_of_le_length within]

theorem Consistent.commit (consistent : Consistent apply origin system) (change : Change) :
    Consistent apply origin { system with log := system.log ++ [change] } where
  faithful backup member := (consistent.faithful backup member).commit change
  recorded backup member := by
    have bounds := consistent.recorded backup member
    simp only [List.length_append, List.length_singleton]
    omega
  anchored := consistent.anchored
  linked := consistent.linked
  running dump current :=
    ⟨(consistent.running dump current).1.commit change, (consistent.running dump current).2⟩

theorem takeDump_faithful (consistent : Consistent apply origin system) :
    (takeDump apply origin system).Faithful apply origin system.log := by
  cases last : system.stored.getLast? with
  | none => simp [takeDump, findLastPosition, last, Dump.Faithful]
  | some backup =>
    have bound := (consistent.recorded backup (List.mem_of_getLast? last)).2
    simp [takeDump, findLastPosition, last, Dump.Faithful, bound]

theorem takeDump_continues : (takeDump apply origin system).Continues system.stored := by
  cases last : system.stored.getLast? <;>
    simp [takeDump, findLastPosition, last, Dump.Continues]

/-- The position is read when the dump has long been taken. -/
theorem Consistent.store (consistent : Consistent apply origin system) {dump : Dump Db Change}
    (faithful : dump.Faithful apply origin system.log) (continues : dump.Continues system.stored) :
    Consistent apply origin
      { system with
        phase := .idle
        stored := system.stored ++ [{ toDump := dump, position := system.log.length }] } where
  faithful backup member := by
    rcases List.mem_append.mp member with earlier | new
    · exact consistent.faithful backup earlier
    · obtain rfl := List.mem_singleton.mp new
      exact faithful
  recorded backup member := by
    rcases List.mem_append.mp member with earlier | new
    · exact consistent.recorded backup earlier
    · obtain rfl := List.mem_singleton.mp new
      exact ⟨faithful.2.1, le_refl _⟩
  anchored first isFirst := by
    cases stored : system.stored with
    | nil =>
      obtain rfl : _ = first := by simpa [stored] using isFirst
      simpa [Dump.Continues, stored] using continues
    | cons head rest =>
      obtain rfl : head = first := by simpa [stored] using isFirst
      exact consistent.anchored head (by simp [stored])
  linked := by
    rw [List.isChain_append]
    refine ⟨consistent.linked, List.isChain_singleton _, fun last isLast next isNext => ?_⟩
    obtain rfl : _ = next := by simpa using isNext
    rw [Option.mem_def] at isLast
    simpa [Dump.Continues, isLast] using continues
  running dump current := by simp [Phase.dump?] at current

theorem Consistent.step (consistent : Consistent apply origin system) (event : Event Change) :
    Consistent apply origin (step apply origin system event) := by
  cases event with
  | commit change => exact consistent.commit change
  | advance =>
    cases phase : system.phase with
    | idle =>
      have faithful := takeDump_faithful consistent
      rw [step_idle phase]
      refine { consistent with running := fun dump current => ?_ }
      obtain rfl := Option.some.inj current
      exact ⟨faithful, takeDump_continues⟩
    | dumped dump =>
      rw [step_dumped phase]
      refine { consistent with running := fun other current => ?_ }
      obtain rfl := Option.some.inj current
      exact consistent.running dump (by simp [phase, Phase.dump?])
    | uploaded dump =>
      rw [step_uploaded phase]
      have running := consistent.running dump (by simp [phase, Phase.dump?])
      exact consistent.store running.1 running.2

theorem systemAfter_consistent (events : List (Event Change)) :
    Consistent apply origin (systemAfter apply origin events) := by
  refine invariant_run (fun system event consistent => consistent.step event) ?_ events
  exact
    { faithful := by simp
      recorded := by simp
      anchored := by simp
      linked := List.isChain_nil
      running := by simp [Phase.dump?] }

/-! ### Gaps -/

def Backup.gap (backup : Backup Db Change) : Nat := backup.position - backup.window.stop

/-- Between two runs nothing is collected. -/
theorem lateCommits_idle (late other : List Change) (events : List (Event Change)) :
    lateCommits .idle late events = lateCommits .idle other events := by
  cases events with
  | nil => rfl
  | cons event rest => cases event <;> rfl

theorem lateCommits_commit (stage : Stage) (late : List Change) (change : Change)
    (rest : List (Event Change)) :
    lateCommits stage late (.commit change :: rest) =
      lateCommits stage (late ++ [change]) rest := by
  cases stage with
  | idle => exact lateCommits_idle [] (late ++ [change]) rest
  | dumped => rfl
  | uploaded => rfl

theorem takeDump_stop : (takeDump apply origin system).window.stop = system.log.length := by
  unfold takeDump
  cases findLastPosition system.stored <;> rfl

/-- The gaps a history leaves are its commits inside runs. -/
theorem gaps_run {late : List Change} (events : List (Event Change))
    (counted : ∀ dump ∈ system.phase.dump?,
      system.log.length = dump.window.stop + late.length) :
    (run (step apply origin) system events).stored.map Backup.gap =
      system.stored.map Backup.gap ++
        (lateCommits system.phase.stage late events).map List.length := by
  induction events generalizing system late with
  | nil => simp [lateCommits]
  | cons event rest ih =>
    rw [run_cons]
    cases event with
    | commit change =>
      rw [lateCommits_commit]
      apply ih
      intro dump current
      have length := counted dump current
      simp only [step, List.length_append, List.length_singleton]
      omega
    | advance =>
      cases phase : system.phase with
      | idle =>
        rw [step_idle phase, @ih _ []]
        · rfl
        · intro dump current
          obtain rfl := Option.some.inj current
          exact takeDump_stop.symm
      | dumped dump =>
        rw [phase] at counted
        rw [step_dumped phase]
        exact ih counted
      | uploaded dump =>
        have length := counted dump (by rw [phase]; rfl)
        rw [step_uploaded phase, @ih _ [] (by simp [Phase.dump?])]
        simp [Phase.stage, lateCommits, Backup.gap, length]

/-- A position never lies before the end of its dump, so windows that meet are
windows that join. -/
theorem gapless_iff {stored : List (Backup Db Change)}
    (recorded : ∀ backup ∈ stored, backup.window.stop ≤ backup.position)
    (linked : stored.IsChain fun backup next => next.window.start = backup.position) :
    Gapless stored ↔ ∀ backup ∈ stored.dropLast, backup.gap = 0 := by
  induction stored with
  | nil => simp [Gapless]
  | cons backup rest ih =>
    cases rest with
    | nil => simp [Gapless]
    | cons next rest =>
      rw [List.isChain_cons_cons] at linked
      rw [List.forall_mem_cons] at recorded
      have tail := ih recorded.2 linked.2
      have joins : Meets backup.window next.window ↔ backup.gap = 0 := by
        unfold Meets Backup.gap
        omega
      unfold Gapless at tail ⊢
      rw [List.isChain_cons_cons, List.dropLast_cons_cons, List.forall_mem_cons, joins, tail]

/-! ### Restoring a gapless chain -/

theorem stateOf_take_append {start stop : Nat} (ordered : start ≤ stop) :
    ((log.take stop).drop start).foldl apply (stateOf apply origin (log.take start)) =
      stateOf apply origin (log.take stop) := by
  unfold stateOf
  rw [← List.foldl_append]
  have prefixed : log.take start = (log.take stop).take start := by
    rw [List.take_take, Nat.min_eq_left ordered]
  rw [prefixed, List.take_append_drop]

/-- A backup that starts where the database stands brings it to its own end. -/
theorem restoreOne_faithful {backup : Backup Db Change}
    (faithful : backup.Faithful apply origin log) :
    restoreOne apply (stateOf apply origin (log.take backup.window.start)) backup =
      stateOf apply origin (log.take backup.window.stop) := by
  obtain ⟨ordered, -, data⟩ := faithful
  unfold restoreOne
  cases kind : backup.data with
  | full db => simpa [kind] using data
  | increment entries =>
    simp only [kind] at data
    rw [data]
    exact stateOf_take_append ordered

theorem foldl_restoreOne {stored : List (Backup Db Change)} {stop : Nat}
    (faithful : ∀ backup ∈ stored, backup.Faithful apply origin log)
    (starts : ∀ first ∈ stored.head?, first.window.start = stop)
    (joined : stored.IsChain fun backup next => next.window.start = backup.window.stop) :
    stored.foldl (restoreOne apply) (stateOf apply origin (log.take stop)) =
      stateOf apply origin (log.take (lastStop stop stored)) := by
  induction stored generalizing stop with
  | nil => rfl
  | cons backup rest ih =>
    rw [List.forall_mem_cons] at faithful
    obtain rfl := starts backup (by simp)
    rw [List.foldl_cons, restoreOne_faithful faithful.1,
      ih faithful.2 (List.isChain_cons.mp joined).1 joined.tail]
    cases rest with
    | nil => rfl
    | cons next rest =>
      simp only [lastStop, List.getLast?_cons_cons]
      rw [List.getLast?_eq_some_getLast (List.cons_ne_nil next rest)]
      rfl

/-- Without a gap the restore follows; it needs no condition of its own. -/
theorem restored_of_gapless (consistent : Consistent apply origin system)
    (gapless : Gapless system.stored) :
    restore apply origin system.stored =
      stateOf apply origin (system.log.take (lastStop 0 system.stored)) := by
  have joined : system.stored.IsChain fun backup next =>
      next.window.start = backup.window.stop := by
    rw [List.isChain_iff_forall_rel_of_append_cons_cons]
    intro backup next front rest split
    have meets := List.isChain_iff_forall_rel_of_append_cons_cons.mp gapless split
    have starts := List.isChain_iff_forall_rel_of_append_cons_cons.mp consistent.linked split
    have recorded := (consistent.recorded backup (by simp [split])).1
    unfold Meets at meets
    omega
  exact foldl_restoreOne consistent.faithful consistent.anchored joined

end Histories

section Completeness

variable (apply : Db → Change → Db) (origin : Db)

theorem no_change_lost_iff_quiet_handovers (events : List (Event Change)) :
    NoChangeLost apply origin (systemAfter apply origin events) ↔
      ∀ late ∈ (lateCommits .idle [] events).dropLast, late = [] := by
  have consistent := @systemAfter_consistent _ _ apply origin events
  have lost : NoChangeLost apply origin (systemAfter apply origin events) ↔
      Gapless (systemAfter apply origin events).stored :=
    ⟨fun complete => complete.gapless, fun gapless =>
      ⟨restored_of_gapless consistent gapless, gapless⟩⟩
  have gaps : (systemAfter apply origin events).stored.map Backup.gap =
      (lateCommits .idle [] events).map List.length :=
    gaps_run events (by simp [Phase.dump?])
  rw [lost, gapless_iff (fun backup member => (consistent.recorded backup member).1)
    consistent.linked]
  calc (∀ backup ∈ (systemAfter apply origin events).stored.dropLast, backup.gap = 0)
      ↔ ∀ gap ∈ ((systemAfter apply origin events).stored.map Backup.gap).dropLast, gap = 0 := by
        rw [← List.map_dropLast, List.forall_mem_map]
    _ ↔ ∀ late ∈ (lateCommits .idle [] events).dropLast, late = [] := by
        rw [gaps, ← List.map_dropLast, List.forall_mem_map]
        simp only [List.length_eq_zero_iff]

end Completeness

/-! ### A commit during the upload -/

/-- A full backup with a commit between its dump and its upload, then an increment. -/
def commitDuringUpload : List (Event Nat) :=
  [.advance, .commit 7, .advance, .advance, .advance, .advance, .advance]

/-- The database is the list of its changes. -/
def record (db : List Nat) (change : Nat) : List Nat := db ++ [change]

theorem commit_during_upload_lost :
    ¬ NoChangeLost record [] (systemAfter record [] commitDuringUpload) ∧
      restore record [] (systemAfter record [] commitDuringUpload).stored = [] ∧
      (systemAfter record [] commitDuringUpload).log = [7] := by
  refine ⟨fun complete => ?_, by decide, by decide⟩
  exact absurd complete.restored (by decide)

end DbBackup.Runner
