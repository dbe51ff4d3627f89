import Mathlib.Data.List.Nodup
import DbBackup.Lib.Run
import DbBackup.Storage.Filename

/-!
Owns the logical replication slots of the PostgreSQL engine over a history of
runs: `IncrementalDump`, `pgChanges` and `EnsureLogicalSlots` of
`supported/database/engine/postgres/incremental.go`, and the place of the two
calls in `Run` (`internal/scheduler/runner/runner.go`).

A slot holds the changes committed since it was created or last consumed. An
incremental run consumes its slot before anything is uploaded; a differential
run only looks at its slot; and every successful run drops both slots and
creates them anew. Contract: exactly which histories lose a change of an
incremental chain, and which make a differential incomplete.

Time starts at the base backup, whose run has created both slots. Changes are
numbered in commit order. The rows of a transaction that are not changes
(`BEGIN`, `COMMIT`) are left out. What a change is translated to is a parameter:
every result holds for each `pgChangeToSQL`.
-/

set_option linter.all false

namespace DbBackup.Engine.Postgres

open Lib.Run Storage

/-- A committed change with its place in the log since the base backup. -/
structure Logged (Row : Type) where
  position : Nat
  row : Row
deriving DecidableEq

/-- The slots `dbbackup_incr_…` and `dbbackup_diff_…`, where they exist. -/
structure Slots (Row : Type) where
  incr : Option (List (Logged Row))
  diff : Option (List (Logged Row))

inductive Dump (Row : Type) where
  | full (upTo : Nat)
  | changes (written : List (Logged Row))

structure System (Row : Type) where
  committed : Nat
  slots : Slots Row
  uploaded : List (Dump Row)

/-- Stages of a run that come after the slot was read. -/
inductive Stage where
  | write
  | compress
  | encrypt
  | upload
deriving DecidableEq

inductive Outcome where
  | failsBeforeRead
  | failsAfterRead (stage : Stage)
  | succeeds
deriving DecidableEq

inductive Event (Row : Type) where
  | commit (row : Row)
  | run (outcome : Outcome)
deriving DecidableEq

variable {Row : Type}

/-! ### The engine -/

def ensureLogicalSlots : Slots Row where
  incr := some []
  diff := some []

def slotOf (strategy : Strategy) (slots : Slots Row) : Option (List (Logged Row)) :=
  if strategy = .differential then slots.diff else slots.incr

/-- `pgChanges`: the changes that become statements. -/
def translated (toSQL : Row → Option String) (entries : List (Logged Row)) : List (Logged Row) :=
  entries.filter fun entry => (toSQL entry.row).isSome

/-- The read of a slot; only a differential leaves it as it was. -/
def afterRead (strategy : Strategy) (slots : Slots Row) : Slots Row :=
  if strategy = .differential then slots
  else { slots with incr := slots.incr.map fun _ => [] }

def incrementalDump (toSQL : Row → Option String) (strategy : Strategy) (system : System Row) :
    Dump Row :=
  match slotOf strategy system.slots with
  | none => .full system.committed
  | some entries => .changes (translated toSQL entries)

/-! ### Histories -/

def logChange (entry : Logged Row) (slots : Slots Row) : Slots Row where
  incr := slots.incr.map (· ++ [entry])
  diff := slots.diff.map (· ++ [entry])

def step (toSQL : Row → Option String) (strategy : Strategy) (system : System Row) :
    Event Row → System Row
  | .commit row =>
    { system with
      committed := system.committed + 1
      slots := logChange ⟨system.committed, row⟩ system.slots }
  | .run .failsBeforeRead => system
  | .run (.failsAfterRead _) => { system with slots := afterRead strategy system.slots }
  | .run .succeeds =>
    { system with
      slots := ensureLogicalSlots
      uploaded := system.uploaded ++ [incrementalDump toSQL strategy system] }

/-- After the run of the base backup. -/
def baseSystem : System Row where
  committed := 0
  slots := ensureLogicalSlots
  uploaded := []

def systemAfter (toSQL : Row → Option String) (strategy : Strategy) (events : List (Event Row)) :
    System Row :=
  run (step toSQL strategy) baseSystem events

def pending (strategy : Strategy) (system : System Row) : List (Logged Row) :=
  (slotOf strategy system.slots).getD []

/-! ### Incrementals under failures -/

def Dump.Contains (position : Nat) : Dump Row → Prop
  | .full upTo => position < upTo
  | .changes written => ∃ entry ∈ written, entry.position = position

/-- A change is in an uploaded increment or will be read by the next run. -/
def Covered (strategy : Strategy) (system : System Row) (position : Nat) : Prop :=
  (∃ dump ∈ system.uploaded, dump.Contains position) ∨
    ∃ entry ∈ pending strategy system, entry.position = position

def NothingLost (strategy : Strategy) (system : System Row) : Prop :=
  ∀ position < system.committed, Covered strategy system position

/-- No pending change is taken from the slot without reaching the storage. -/
def SafeStep (toSQL : Row → Option String) (system : System Row) : Event Row → Prop
  | .commit _ => True
  | .run .failsBeforeRead => True
  | .run (.failsAfterRead _) => pending .incremental system = []
  | .run .succeeds => ∀ entry ∈ pending .incremental system, (toSQL entry.row).isSome = true

section Incremental

variable {toSQL : Row → Option String} {system : System Row}

/-- The invariant of every history of incremental runs. -/
structure SlotInv (system : System Row) : Prop where
  slotExists : ∃ entries, system.slots.incr = some entries
  below : ∀ entry ∈ pending .incremental system, entry.position < system.committed
  distinct : ((pending .incremental system).map Logged.position).Nodup
  fresh : ∀ dump ∈ system.uploaded, ∀ position, dump.Contains position →
    position < system.committed ∧
      ∀ entry ∈ pending .incremental system, entry.position ≠ position

theorem slotInv_base : SlotInv (baseSystem : System Row) where
  slotExists := ⟨[], rfl⟩
  below := by simp [pending, slotOf, baseSystem, ensureLogicalSlots]
  distinct := by simp [pending, slotOf, baseSystem, ensureLogicalSlots]
  fresh := by simp [baseSystem]

theorem pending_commit (inv : SlotInv system) (row : Row) :
    pending .incremental (step toSQL .incremental system (.commit row)) =
      pending .incremental system ++ [⟨system.committed, row⟩] := by
  obtain ⟨entries, slot⟩ := inv.slotExists
  simp [pending, slotOf, step, logChange, slot]

theorem pending_failsAfterRead (stage : Stage) :
    pending .incremental (step toSQL .incremental system (.run (.failsAfterRead stage))) = [] := by
  cases slot : system.slots.incr <;> simp [pending, slotOf, step, afterRead, slot]

theorem pending_succeeds :
    pending .incremental (step toSQL .incremental system (.run .succeeds)) = [] := by
  simp [pending, slotOf, step, ensureLogicalSlots]

theorem uploaded_succeeds (inv : SlotInv system) :
    (step toSQL .incremental system (.run .succeeds)).uploaded =
      system.uploaded ++ [.changes (translated toSQL (pending .incremental system))] := by
  obtain ⟨entries, slot⟩ := inv.slotExists
  simp [step, incrementalDump, pending, slotOf, slot]

variable {position : Nat}

/-- What a successful run leaves in the storage was there or pending before. -/
theorem covered_of_succeeds (inv : SlotInv system) {dump : Dump Row}
    (member : dump ∈ (step toSQL .incremental system (.run .succeeds)).uploaded)
    (contains : dump.Contains position) : Covered .incremental system position := by
  rw [uploaded_succeeds inv] at member
  rcases List.mem_append.mp member with old | new
  · exact .inl ⟨dump, old, contains⟩
  · rw [List.mem_singleton.mp new] at contains
    obtain ⟨entry, written, same⟩ := contains
    exact .inr ⟨entry, List.mem_of_mem_filter written, same⟩

theorem SlotInv.lt_committed (inv : SlotInv system)
    (covered : Covered .incremental system position) : position < system.committed := by
  rcases covered with ⟨dump, uploaded, contains⟩ | ⟨entry, member, same⟩
  · exact (inv.fresh dump uploaded position contains).1
  · rw [← same]
    exact inv.below entry member

/-- The new change has a position of its own. -/
theorem SlotInv.commit (inv : SlotInv system) (row : Row) :
    SlotInv (step toSQL .incremental system (.commit row)) where
  slotExists := by
    obtain ⟨entries, slot⟩ := inv.slotExists
    exact ⟨entries ++ [⟨system.committed, row⟩], by simp [step, logChange, slot]⟩
  below entry member := by
    rw [pending_commit inv] at member
    rcases List.mem_append.mp member with old | new
    · exact Nat.lt_succ_of_lt (inv.below entry old)
    · rw [List.mem_singleton.mp new]
      exact Nat.lt_succ_self _
  distinct := by
    rw [pending_commit inv, List.map_append, List.nodup_append]
    refine ⟨inv.distinct, by simp, ?_⟩
    intro position old other new
    obtain ⟨entry, member, rfl⟩ := List.mem_map.mp old
    have isNew : other = system.committed := by simpa using new
    have below := inv.below entry member
    omega
  fresh dump uploaded position contains := by
    obtain ⟨below, apart⟩ := inv.fresh dump uploaded position contains
    refine ⟨Nat.lt_succ_of_lt below, fun entry member => ?_⟩
    rw [pending_commit inv] at member
    rcases List.mem_append.mp member with old | new
    · exact apart entry old
    · rw [List.mem_singleton.mp new]
      exact Nat.ne_of_gt below

variable (system : System Row)

theorem slotInv_step (event : Event Row) (inv : SlotInv system) :
    SlotInv (step toSQL .incremental system event) := by
  match event with
  | .commit row => exact inv.commit row
  | .run .failsBeforeRead => exact inv
  | .run (.failsAfterRead stage) =>
    have pendingNow := @pending_failsAfterRead Row toSQL system stage
    refine ⟨?_, by simp [pendingNow], by simp [pendingNow], ?_⟩
    · obtain ⟨entries, slot⟩ := inv.slotExists
      exact ⟨[], by simp [step, afterRead, slot]⟩
    · intro dump uploaded position contains
      exact ⟨(inv.fresh dump uploaded position contains).1, by simp [pendingNow]⟩
  | .run .succeeds =>
    have pendingNow := @pending_succeeds Row toSQL system
    refine ⟨⟨[], rfl⟩, by simp [pendingNow], by simp [pendingNow], ?_⟩
    intro dump uploaded position contains
    exact ⟨inv.lt_committed (covered_of_succeeds inv uploaded contains), by simp [pendingNow]⟩

/-- A lost change never comes back: later steps only add new positions. -/
theorem lost_step (event : Event Row) (inv : SlotInv system)  (below : position < system.committed)
    (lost : ¬ Covered .incremental system position) :
    ¬ Covered .incremental (step toSQL .incremental system event) position := by
  match event with
  | .commit row =>
    rintro (uploaded | ⟨entry, member, same⟩)
    · exact lost (.inl uploaded)
    · rw [pending_commit inv] at member
      rcases List.mem_append.mp member with old | new
      · exact lost (.inr ⟨entry, old, same⟩)
      · rw [List.mem_singleton.mp new] at same
        simp only at same
        omega
  | .run .failsBeforeRead => exact lost
  | .run (.failsAfterRead stage) =>
    rintro (uploaded | ⟨entry, member, _⟩)
    · exact lost (.inl uploaded)
    · rw [pending_failsAfterRead] at member
      exact absurd member List.not_mem_nil
  | .run .succeeds =>
    rintro (⟨dump, member, contains⟩ | ⟨entry, member, _⟩)
    · exact lost (covered_of_succeeds inv member contains)
    · rw [pending_succeeds] at member
      exact absurd member List.not_mem_nil

theorem committed_mono (event : Event Row) :
    system.committed ≤ (step toSQL .incremental system event).committed := by
  match event with
  | .commit row => exact Nat.le_succ _
  | .run .failsBeforeRead => exact Nat.le_refl _
  | .run (.failsAfterRead stage) => exact Nat.le_refl _
  | .run .succeeds => exact Nat.le_refl _

theorem nothingLost_step (event : Event Row) (inv : SlotInv system)
    (good : NothingLost .incremental system) (safe : SafeStep toSQL system event) :
    NothingLost .incremental (step toSQL .incremental system event) := by
  match event with
  | .commit row =>
    intro position below
    unfold Covered
    rw [pending_commit inv]
    rcases Nat.lt_succ_iff_lt_or_eq.mp below with old | new
    · rcases good position old with uploaded | ⟨entry, member, same⟩
      · exact .inl uploaded
      · exact .inr ⟨entry, List.mem_append_left _ member, same⟩
    · exact .inr ⟨_, List.mem_append_right _ (List.mem_singleton_self _), new.symm⟩
  | .run .failsBeforeRead => exact good
  | .run (.failsAfterRead stage) =>
    intro position below
    rcases good position below with uploaded | ⟨entry, member, _⟩
    · exact .inl uploaded
    · have empty : pending .incremental system = [] := safe
      rw [empty] at member
      exact absurd member List.not_mem_nil
  | .run .succeeds =>
    intro position below
    left
    rw [uploaded_succeeds inv]
    rcases good position below with ⟨dump, member, contains⟩ | ⟨entry, member, same⟩
    · exact ⟨dump, List.mem_append_left _ member, contains⟩
    · refine ⟨_, List.mem_append_right _ (List.mem_singleton_self _), entry, ?_, same⟩
      exact List.mem_filter.mpr ⟨member, safe entry member⟩

/-- A pending change that is neither kept nor uploaded is lost. -/
theorem lost_of_risky (event : Event Row) (inv : SlotInv system)
    (risky : ¬ SafeStep toSQL system event) :
    ¬ NothingLost .incremental (step toSQL .incremental system event) := by
  match event with
  | .commit row => exact absurd trivial risky
  | .run .failsBeforeRead => exact absurd trivial risky
  | .run (.failsAfterRead stage) =>
    obtain ⟨entry, rest, shape⟩ := List.exists_cons_of_ne_nil risky
    have member : entry ∈ pending .incremental system := by simp [shape]
    intro nothingLost
    rcases nothingLost entry.position (inv.below entry member) with
      ⟨dump, uploaded, contains⟩ | ⟨other, inSlot, _⟩
    · exact (inv.fresh dump uploaded _ contains).2 entry member rfl
    · rw [pending_failsAfterRead] at inSlot
      exact absurd inSlot List.not_mem_nil
  | .run .succeeds =>
    simp only [SafeStep, not_forall] at risky
    obtain ⟨entry, member, untranslated⟩ := risky
    intro nothingLost
    rcases nothingLost entry.position (inv.below entry member) with
      ⟨dump, uploaded, contains⟩ | ⟨other, inSlot, _⟩
    · rw [uploaded_succeeds inv] at uploaded
      rcases List.mem_append.mp uploaded with old | new
      · exact (inv.fresh dump old _ contains).2 entry member rfl
      · rw [List.mem_singleton.mp new] at contains
        obtain ⟨other, written, same⟩ := contains
        obtain ⟨otherPending, isTranslated⟩ := List.mem_filter.mp written
        rw [List.inj_on_of_nodup_map inv.distinct otherPending member same] at isTranslated
        exact untranslated isTranslated
    · rw [pending_succeeds] at inSlot
      exact absurd inSlot List.not_mem_nil

/-- **Which histories lose nothing.** Every change since the base backup is
uploaded or still pending exactly if every run that failed after its read had
found the slot empty, and every successful run could translate what it read. -/
theorem nothingLost_iff (toSQL : Row → Option String) (events : List (Event Row)) :
    NothingLost .incremental (systemAfter toSQL .incremental events) ↔
      EveryStep (step toSQL .incremental) (SafeStep toSQL) baseSystem events := by
  have stays : ∀ system event, SlotInv system → ¬ NothingLost .incremental system →
      ¬ NothingLost .incremental (step toSQL .incremental system event) := by
    intro system event inv lost nothingLost
    simp only [NothingLost, not_forall] at lost
    obtain ⟨position, below, uncovered⟩ := lost
    exact lost_step system event inv below uncovered
      (nothingLost position (below.trans_le (committed_mono system event)))
  exact good_run_iff slotInv_step nothingLost_step lost_of_risky stays slotInv_base
    (fun position below => absurd below (Nat.not_lt_zero position)) events

/-- The translation of two sample changes. -/
def sampleToSQL (data : String) : Option String :=
  if data = "table public.t: INSERT: id[integer]:1" then
    some "INSERT INTO \"public\".\"t\" (\"id\") VALUES (1);"
  else if data = "table public.t: INSERT: id[integer]:2" then
    some "INSERT INTO \"public\".\"t\" (\"id\") VALUES (2);"
  else none

/-- A change that was read by a run whose upload failed is gone. -/
theorem failed_upload_loses_change :
    ¬ NothingLost .incremental (systemAfter sampleToSQL .incremental
      [.commit "table public.t: INSERT: id[integer]:1", .run (.failsAfterRead .upload)]) := by
  intro nothingLost
  rcases nothingLost 0 (by decide) with ⟨dump, uploaded, _⟩ | ⟨entry, member, _⟩
  · exact absurd uploaded List.not_mem_nil
  · exact absurd member List.not_mem_nil

end Incremental

/-! ### Differentials over a history -/

section Differential

variable {toSQL : Row → Option String}

def commits (events : List (Event Row)) : List Row :=
  events.filterMap fun event =>
    match event with
    | .commit row => some row
    | .run _ => none

/-- The changes since the last successful run. -/
def sinceSuccess (events : List (Event Row)) : List Row :=
  events.foldl
    (fun rows event =>
      match event with
      | .commit row => rows ++ [row]
      | .run .succeeds => []
      | .run _ => rows)
    []

/-- Every change was committed after the last successful run. -/
def NoEarlierChange (events : List (Event Row)) : Prop :=
  ∀ before after, events = before ++ .run .succeeds :: after → commits before = []

variable (events : List (Event Row))

theorem sinceSuccess_concat (event : Event Row) : sinceSuccess (events ++ [event]) =
      match event with
      | .commit row => sinceSuccess events ++ [row]
      | .run .succeeds => []
      | .run _ => sinceSuccess events := by
  simp [sinceSuccess]

theorem commits_append (first second : List (Event Row)) :
    commits (first ++ second) = commits first ++ commits second :=
  List.filterMap_append ..

theorem noEarlierChange_concat (event : Event Row) : NoEarlierChange (events ++ [event]) ↔
      NoEarlierChange events ∧ (event = .run .succeeds → commits events = []) := by
  constructor
  · intro noEarlier
    refine ⟨fun before after split => ?_, fun isSuccess => ?_⟩
    · exact noEarlier before (after ++ [event]) (by rw [split]; simp)
    · exact noEarlier events [] (by rw [isSuccess])
  · rintro ⟨noEarlier, last⟩ before after split
    rcases List.eq_nil_or_concat after with isLast | ⟨rest, final, shape⟩
    · rw [isLast] at split
      obtain ⟨same, isSuccess⟩ := List.append_inj' split rfl
      rw [← same]
      exact last (List.singleton_inj.mp isSuccess)
    · rw [shape, List.concat_eq_append, ← List.cons_append, ← List.append_assoc] at split
      obtain ⟨same, _⟩ := List.append_inj' split rfl
      exact noEarlier before rest same

theorem sinceSuccess_suffix :
    sinceSuccess events <:+ commits events := by
  induction events using List.reverseRecOn with
  | nil => exact List.suffix_refl _
  | append_singleton events event ih =>
    rw [sinceSuccess_concat, commits_append]
    match event with
    | .commit row =>
      obtain ⟨older, split⟩ := ih
      exact ⟨older, by rw [← split]; simp [commits]⟩
    | .run .succeeds => exact List.nil_suffix
    | .run .failsBeforeRead => simpa [commits] using ih
    | .run (.failsAfterRead stage) => simpa [commits] using ih

theorem sinceSuccess_eq_commits_iff :
    sinceSuccess events = commits events ↔ NoEarlierChange events := by
  induction events using List.reverseRecOn with
  | nil =>
    refine ⟨fun _ before after split => ?_, fun _ => rfl⟩
    exact absurd split (by simp)
  | append_singleton events event ih =>
    rw [noEarlierChange_concat, sinceSuccess_concat, commits_append, ← ih]
    match event with
    | .commit row => simp [commits]
    | .run .succeeds =>
      simp only [commits, List.filterMap_cons_none, List.filterMap_nil, List.append_nil,
        forall_const]
      constructor
      · intro empty
        have suffix := sinceSuccess_suffix events
        have nothing : commits events = [] := empty.symm
        rw [nothing] at suffix
        exact ⟨(List.suffix_nil.mp suffix).trans empty, nothing⟩
      · rintro ⟨_, nothing⟩
        exact nothing.symm
    | .run .failsBeforeRead => simp [commits]
    | .run (.failsAfterRead stage) => simp [commits]

/-- The differential slot holds what was committed since the last success. -/
theorem diffSlot_systemAfter (events : List (Event Row)) :
    ∃ entries, (systemAfter toSQL .differential events).slots.diff = some entries ∧
      entries.map Logged.row = sinceSuccess events := by
  induction events using List.reverseRecOn with
  | nil => exact ⟨[], rfl, rfl⟩
  | append_singleton events event ih =>
    obtain ⟨entries, slot, rows⟩ := ih
    rw [sinceSuccess_concat]
    unfold systemAfter at slot ⊢
    rw [run_append, run_cons, run_nil]
    match event with
    | .commit row =>
      refine ⟨entries ++
        [⟨(run (step toSQL .differential) baseSystem events).committed, row⟩], ?_, ?_⟩
      · simp only [step, logChange, slot, Option.map_some]
      · simp [rows]
    | .run .succeeds => exact ⟨[], rfl, rfl⟩
    | .run .failsBeforeRead => exact ⟨entries, slot, rows⟩
    | .run (.failsAfterRead stage) => exact ⟨entries, slot, rows⟩

/-! ### Completeness of a differential -/

/-- The state a dump gives on top of a base state. -/
def Dump.restoreOnto {State : Type} (toSQL : Row → Option String) (exec : State → String → State)
    (apply : State → Row → State) (log : List Row) (base : State) : Dump Row → State
  | .full upTo => (log.take upTo).foldl apply base
  | .changes written => (written.filterMap fun entry => toSQL entry.row).foldl exec base

/-- The differential taken after `events` alone brings the base up to date,
whatever the changes do to a database, as long as a statement does what the
change it was made from did. -/
def DifferentialComplete (toSQL : Row → Option String) (events : List (Event Row)) : Prop :=
  ∀ (State : Type) (apply : State → Row → State) (exec : State → String → State),
    (∀ state row sql, toSQL row = some sql → exec state sql = apply state row) →
    ∀ base, (incrementalDump toSQL .differential
        (systemAfter toSQL .differential events)).restoreOnto toSQL exec apply (commits events) base =
      (commits events).foldl apply base

theorem restoreOnto_differential {State : Type}
    (apply : State → Row → State) (exec : State → String → State) (base : State) :
    (incrementalDump toSQL .differential
        (systemAfter toSQL .differential events)).restoreOnto toSQL exec apply (commits events) base =
      ((sinceSuccess events).filterMap toSQL).foldl exec base := by
  obtain ⟨entries, slot, rows⟩ := @diffSlot_systemAfter Row toSQL events
  have written : incrementalDump toSQL .differential (systemAfter toSQL .differential events) =
      .changes (translated toSQL entries) := by
    simp [incrementalDump, slotOf, slot]
  have sameStatements : (translated toSQL entries).filterMap (fun entry => toSQL entry.row) =
      (entries.map Logged.row).filterMap toSQL := by
    unfold translated
    rw [List.filterMap_filter, List.filterMap_map]
    congr 1
    funext entry
    cases translation : toSQL entry.row <;> simp [translation]
  rw [written]
  show ((translated toSQL entries).filterMap fun entry => toSQL entry.row).foldl exec base = _
  rw [sameStatements, rows]

theorem foldl_exec_of_translated {State : Type} {apply : State → Row → State}
    {exec : State → String → State}
    (faithful : ∀ state row sql, toSQL row = some sql → exec state sql = apply state row)
    (rows : List Row) (all : ∀ row ∈ rows, (toSQL row).isSome = true) (base : State) :
    (rows.filterMap toSQL).foldl exec base = rows.foldl apply base := by
  induction rows generalizing base with
  | nil => rfl
  | cons row rest ih =>
    obtain ⟨sql, translation⟩ := Option.isSome_iff_exists.mp (all row List.mem_cons_self)
    rw [List.filterMap_cons_some translation, List.foldl_cons, List.foldl_cons,
      faithful base row sql translation]
    exact ih (List.forall_mem_cons.mp all).2 _

/-- **When a differential is complete**: no change was committed before an
earlier successful run, because that run has emptied the slot, and every change
can be translated. -/
theorem differentialComplete_iff (toSQL : Row → Option String) (events : List (Event Row)) :
    DifferentialComplete toSQL events ↔
      NoEarlierChange events ∧ ∀ row ∈ commits events, (toSQL row).isSome = true := by
  constructor
  · intro complete
    -- A database that counts its changes tells how many the differential holds.
    have counted := complete Nat (fun n _ => n + 1) (fun n _ => n + 1) (fun _ _ _ _ => rfl) 0
    rw [restoreOnto_differential] at counted
    have length : ∀ {α : Type} (items : List α) (n : Nat),
        items.foldl (fun n _ => n + 1) n = n + items.length := by
      intro α items
      induction items with
      | nil => simp
      | cons item rest ih =>
        intro n
        rw [List.foldl_cons, ih, List.length_cons]
        omega
    rw [length, length, Nat.zero_add, Nat.zero_add] at counted
    have fewer := List.length_filterMap_le toSQL (sinceSuccess events)
    have suffix := sinceSuccess_suffix events
    have same : sinceSuccess events = commits events :=
      suffix.eq_of_length (le_antisymm suffix.length_le (by omega))
    refine ⟨(sinceSuccess_eq_commits_iff events).mp same, ?_⟩
    rw [same] at counted
    exact List.filterMap_length_eq_length.mp counted
  · rintro ⟨noEarlier, all⟩ State apply exec faithful base
    rw [restoreOnto_differential, (sinceSuccess_eq_commits_iff events).mpr noEarlier]
    exact foldl_exec_of_translated faithful _ all base

/-- The second differential lacks the change that the first one carried. -/
theorem second_differential_incomplete :
    ¬ DifferentialComplete sampleToSQL
      [.commit "table public.t: INSERT: id[integer]:1", .run .succeeds,
        .commit "table public.t: INSERT: id[integer]:2"] := by
  intro complete
  have counted := complete Nat (fun n _ => n + 1) (fun n _ => n + 1) (fun _ _ _ _ => rfl) 0
  exact absurd counted (by decide)

end Differential

end DbBackup.Engine.Postgres
