import DbBackup.Lib.Run
import DbBackup.Lib.Time
import Mathlib.Data.List.Count
import Mathlib.Data.List.Dedup
import Mathlib.Data.List.Sort

/-!
Owns the event journal of the usage statistics: `Record`, `Window`, `Ack` and
the reporting part of `TryReport`, as one system that any number of recorders
and one reporter drive in any order.

Contract: a step is one access to the clock or to the journal directory. The
directory is the list of its lines, each with the file it is in: no journal
file is ever empty, because an append writes a line and `Ack` removes a file it
would empty. `Window` and `Ack` list the directory first and then read file by
file; a rewrite puts the lines read earlier in place of the file. The mutex of
the package is held during an append only, so it orders no append against a
read or a rewrite.

An event carries its time as nanoseconds; the RFC 3339 text of the journal and
of the acknowledged time keeps all of them. Lines are numbered by the `Record`
call that wrote them, so two equal events are two lines.

Does not own when a report is due or how the payload is rendered.
-/

set_option linter.all false

namespace DbBackup.Stats

open Lib.Run Lib.Time

/-! ### Events -/

structure Outcome where
  op : String
  trigger : String := ""
  engine : String := ""
  ok : Bool := true
  ms : Int := 0
  jobs : Int := 0
  bytes : Int := 0
  rawBytes : Int := 0
  checksum : String := ""
deriving DecidableEq

structure Event where
  ts : Int
  op : String
  trigger : String
  engine : String
  ok : Bool
  ms : Int
  jobs : Int
  kb : Int
  rawKB : Int
  checksum : String
deriving DecidableEq

def toKB (n : Int) : Int := if n ≤ 0 then 0 else (n + 512) / 1024

/-- The event `Record` marshals. -/
def stampEvent (o : Outcome) (now : Int) : Event where
  ts := now
  op := o.op
  trigger := o.trigger
  engine := o.engine
  ok := o.ok
  ms := o.ms
  jobs := o.jobs
  kb := toKB o.bytes
  rawKB := toKB o.rawBytes
  checksum := o.checksum

/-- An event that is stamped and not yet in the journal. -/
structure Stamped where
  call : Nat
  event : Event
deriving DecidableEq

structure Line where
  call : Nat
  event : Event
  file : String
deriving DecidableEq

def journalFile (day : String) : String := "events-" ++ day ++ ".ndjson"

def Stamped.line (stamped : Stamped) (day : String) : Line where
  call := stamped.call
  event := stamped.event
  file := journalFile day

/-! ### The system -/

/-- How far the reporter is. `t0` is the time it took before it read anything. -/
inductive Phase where
  | idle
  | started (t0 : Int)
  | reading (t0 : Int) (todo : List String) (collected : List Line)
  | accepted (t0 : Int)
  | acking (t0 : Int) (todo : List String)
  | rewriting (t0 : Int) (file : String) (keep : List Line) (todo : List String)
deriving DecidableEq

structure Report where
  t0 : Int
  events : List Line
deriving DecidableEq

structure State where
  clock : Int
  calls : Nat
  pending : List Stamped
  journal : List Line
  /-- Every line an append ever wrote. -/
  recorded : List Line
  reports : List Report
  ackAt : Int
  phase : Phase
deriving DecidableEq

def State.initial : State where
  clock := Instant.zero.nanos
  calls := 0
  pending := []
  journal := []
  recorded := []
  reports := []
  ackAt := Instant.zero.nanos
  phase := .idle

inductive Action where
  | stamp (outcome : Outcome) (now : Int)
  | append (call : Nat) (day : String)
  | start (now : Int)
  | listWindow
  | readWindow
  | accept
  | reject
  | listAck
  | readAck
  | rename
deriving DecidableEq

/-- The names `os.ReadDir` returns. -/
def fileNames (journal : List Line) : List String :=
  (journal.map Line.file).dedup.insertionSort (· ≤ ·)

def linesIn (journal : List Line) (file : String) : List Line :=
  journal.filter fun line => line.file = file

def linesAfter (watermark : Int) (lines : List Line) : List Line :=
  lines.filter fun line => watermark < line.event.ts

/-- One step. An action that does not fit the state does nothing. -/
def step (state : State) : Action → State
  | .stamp outcome now =>
    if state.clock ≤ now ∧ outcome.op ≠ "" then
      { state with
        clock := now
        calls := state.calls + 1
        pending := state.pending ++ [⟨state.calls, stampEvent outcome now⟩] }
    else state
  | .append call day =>
    match state.pending.find? fun stamped => stamped.call = call with
    | none => state
    | some stamped =>
      { state with
        pending := state.pending.filter fun other => other.call ≠ call
        journal := state.journal ++ [stamped.line day]
        recorded := state.recorded ++ [stamped.line day] }
  | .start now =>
    match state.phase with
    | .idle => if state.clock ≤ now then { state with clock := now, phase := .started now } else state
    | _ => state
  | .listWindow =>
    match state.phase with
    | .started t0 => { state with phase := .reading t0 (fileNames state.journal) [] }
    | _ => state
  | .readWindow =>
    match state.phase with
    | .reading t0 (file :: todo) collected =>
      let found := linesAfter state.ackAt (linesIn state.journal file)
      { state with phase := .reading t0 todo (collected ++ found) }
    | _ => state
  | .accept =>
    match state.phase with
    | .reading t0 [] collected =>
      { state with
        reports := state.reports ++ [⟨t0, collected⟩]
        ackAt := t0
        phase := .accepted t0 }
    | _ => state
  | .reject =>
    match state.phase with
    | .reading _ [] _ => { state with phase := .idle }
    | _ => state
  | .listAck =>
    match state.phase with
    | .accepted t0 => { state with phase := .acking t0 (fileNames state.journal) }
    | _ => state
  | .readAck =>
    match state.phase with
    | .acking _ [] => { state with phase := .idle }
    | .acking t0 (file :: todo) =>
      let keep := linesAfter t0 (linesIn state.journal file)
      { state with phase := .rewriting t0 file keep todo }
    | _ => state
  | .rename =>
    match state.phase with
    | .rewriting t0 file keep todo =>
      { state with
        journal := (state.journal.filter fun line => line.file ≠ file) ++ keep
        phase := .acking t0 todo }
    | _ => state

/-! ### What is promised -/

def State.timesReported (state : State) (line : Line) : Nat :=
  (state.reports.flatMap Report.events).count line

/-- A recorded event that an accepted report covers is in exactly one of them. -/
def ExactlyOnce (state : State) : Prop :=
  ∀ line ∈ state.recorded, (∃ report ∈ state.reports, line.event.ts ≤ report.t0) →
    state.timesReported line = 1

/-- What left the journal was in an accepted report. -/
def RemovedOnlyReported (state : State) : Prop :=
  ∀ line ∈ state.recorded, line ∉ state.journal → 1 ≤ state.timesReported line

/-- An append comes in time: its event is newer than what is acknowledged, and
a report that is under way will read it exactly if it covers it. -/
def Timely (state : State) (stamped : Stamped) (day : String) : Prop :=
  state.ackAt < stamped.event.ts ∧
    match state.phase with
    | .started t0 => stamped.event.ts ≤ t0
    | .reading t0 todo _ => stamped.event.ts ≤ t0 ↔ journalFile day ∈ todo
    | .rewriting _ file _ _ => journalFile day ≠ file
    | _ => True

def TimelyStep (state : State) : Action → Prop
  | .append call day => ∀ stamped ∈ state.pending, stamped.call = call → Timely state stamped day
  | _ => True

instance (state : State) (stamped : Stamped) (day : String) :
    Decidable (Timely state stamped day) := by
  unfold Timely
  cases state.phase <;> exact inferInstance

instance (state : State) (action : Action) : Decidable (TimelyStep state action) :=
  match action with
  | .append call day => inferInstanceAs
      (Decidable (∀ stamped ∈ state.pending, stamped.call = call → Timely state stamped day))
  | .stamp .. | .start .. | .listWindow | .readWindow | .accept | .reject | .listAck | .readAck
  | .rename => .isTrue trivial

/-! ### Files -/

variable {journal : List Line} {file : String}

theorem mem_fileNames :
    file ∈ fileNames journal ↔ ∃ line ∈ journal, line.file = file := by
  simp [fileNames]

theorem fileNames_nodup (journal : List Line) : (fileNames journal).Nodup := by
  unfold fileNames
  exact (List.perm_insertionSort _ _).nodup_iff.mpr (List.nodup_dedup _)

theorem mem_linesAfter {watermark : Int} {lines : List Line} {line : Line} :
    line ∈ linesAfter watermark lines ↔ line ∈ lines ∧ watermark < line.event.ts := by
  simp [linesAfter]

theorem mem_linesIn {line : Line} :
    line ∈ linesIn journal file ↔ line ∈ journal ∧ line.file = file := by
  simp [linesIn]

theorem linesIn_append_of_ne {line : Line}
    (other : line.file ≠ file) : linesIn (journal ++ [line]) file = linesIn journal file := by
  simp [linesIn, other]

/-! ### The invariant -/

/-- Where a report that reads its window stands with one recorded line. -/
structure Collects (ackAt t0 : Int) (todo : List String) (collected : List Line) (line : Line) :
    Prop where
  count : collected.count line =
    if ackAt < line.event.ts ∧ line.event.ts ≤ t0 ∧ line.file ∉ todo then 1 else 0
  ahead : line.file ∈ todo → line.event.ts ≤ t0

def PhaseConsistent (state : State) : Prop :=
  match state.phase with
  | .idle => True
  | .started t0 => state.ackAt ≤ t0 ∧ t0 ≤ state.clock ∧
      ∀ line ∈ state.recorded, line.event.ts ≤ t0
  | .reading t0 todo collected => state.ackAt ≤ t0 ∧ t0 ≤ state.clock ∧ todo.Nodup ∧
      (∀ line ∈ collected, line ∈ state.recorded) ∧
      ∀ line ∈ state.recorded, Collects state.ackAt t0 todo collected line
  | .accepted t0 => t0 = state.ackAt
  | .acking t0 _ => t0 = state.ackAt
  | .rewriting t0 file keep _ => t0 = state.ackAt ∧
      keep = linesAfter t0 (linesIn state.journal file)

structure Consistent (state : State) : Prop where
  pendingDistinct : (state.pending.map Stamped.call).Nodup
  pendingPast : ∀ stamped ∈ state.pending,
    stamped.call < state.calls ∧ stamped.event.ts ≤ state.clock
  recordedPast : ∀ line ∈ state.recorded, line.call < state.calls ∧ line.event.ts ≤ state.clock
  apart : ∀ stamped ∈ state.pending, ∀ line ∈ state.recorded, line.call ≠ stamped.call
  journalDistinct : state.journal.Nodup
  journalRecorded : ∀ line ∈ state.journal, line ∈ state.recorded
  ackPast : state.ackAt ≤ state.clock
  reportsPast : ∀ report ∈ state.reports, report.t0 ≤ state.ackAt
  reportsRecorded : ∀ report ∈ state.reports, ∀ line ∈ report.events, line ∈ state.recorded
  settled : ∀ line ∈ state.recorded, line.event.ts ≤ state.ackAt → state.timesReported line = 1
  waiting : ∀ line ∈ state.recorded, state.ackAt < line.event.ts →
    state.timesReported line = 0 ∧ line ∈ state.journal
  phase : PhaseConsistent state

theorem consistent_initial : Consistent State.initial where
  pendingDistinct := by simp [State.initial]
  pendingPast := by simp [State.initial]
  recordedPast := by simp [State.initial]
  apart := by simp [State.initial]
  journalDistinct := by simp [State.initial]
  journalRecorded := by simp [State.initial]
  ackPast := by simp [State.initial]
  reportsPast := by simp [State.initial]
  reportsRecorded := by simp [State.initial]
  settled := by simp [State.initial]
  waiting := by simp [State.initial]
  phase := trivial

variable {state : State}

/-- The reporter reads; nothing but its own progress changes. -/
theorem Consistent.withPhase (consistent : Consistent state) {phase : Phase}
    (holds : PhaseConsistent { state with phase }) : Consistent { state with phase } :=
  { consistent with phase := holds }

theorem timesReported_eq_zero (consistent : Consistent state) {line : Line}
    (unrecorded : line ∉ state.recorded) : state.timesReported line = 0 := by
  unfold State.timesReported
  rw [List.count_eq_zero, List.mem_flatMap]
  intro ⟨report, member, listed⟩
  exact unrecorded (consistent.reportsRecorded report member line listed)

/-! ### Recording -/

theorem PhaseConsistent.tick (holds : PhaseConsistent state) {now : Int}
    (later : state.clock ≤ now) (calls : Nat) (pending : List Stamped) :
    PhaseConsistent { state with clock := now, calls, pending } := by
  unfold PhaseConsistent at holds ⊢
  cases atPhase : state.phase with
  | started t0 =>
    simp only [atPhase] at holds ⊢
    exact ⟨holds.1, holds.2.1.trans later, holds.2.2⟩
  | reading t0 todo collected =>
    simp only [atPhase] at holds ⊢
    exact ⟨holds.1, holds.2.1.trans later, holds.2.2⟩
  | idle => trivial
  | accepted t0 => simpa only [atPhase] using holds
  | acking t0 todo => simpa only [atPhase] using holds
  | rewriting t0 file keep todo => simpa only [atPhase] using holds

theorem consistent_stamp (consistent : Consistent state) (outcome : Outcome)
    (now : Int) : Consistent (step state (.stamp outcome now)) := by
  simp only [step]
  split
  · rename_i accepted
    refine { consistent with
      pendingDistinct := ?_, pendingPast := ?_, recordedPast := ?_, apart := ?_
      ackPast := consistent.ackPast.trans accepted.1
      phase := consistent.phase.tick accepted.1 _ _ }
    · rw [List.map_append, List.map_cons, List.map_nil, List.nodup_append]
      refine ⟨consistent.pendingDistinct, List.nodup_singleton _, ?_⟩
      intro call listed other isNew same
      obtain ⟨stamped, member, rfl⟩ := List.mem_map.mp listed
      have isNumber : other = state.calls := List.mem_singleton.mp isNew
      have below := (consistent.pendingPast stamped member).1
      omega
    · intro stamped member
      rcases List.mem_append.mp member with old | isNew
      · have past := consistent.pendingPast stamped old
        exact ⟨Nat.lt_succ_of_lt past.1, past.2.trans accepted.1⟩
      · rw [List.mem_singleton.mp isNew]
        exact ⟨Nat.lt_succ_self _, le_refl _⟩
    · intro line member
      have past := consistent.recordedPast line member
      exact ⟨Nat.lt_succ_of_lt past.1, past.2.trans accepted.1⟩
    · intro stamped member line recorded
      rcases List.mem_append.mp member with old | isNew
      · exact consistent.apart stamped old line recorded
      · rw [List.mem_singleton.mp isNew]
        have below := (consistent.recordedPast line recorded).1
        show line.call ≠ state.calls
        omega
  · exact consistent

theorem Timely.phaseConsistent (consistent : Consistent state)
    {stamped : Stamped} {day : String} (timely : Timely state stamped day)
    (unrecorded : stamped.line day ∉ state.recorded) (pending : List Stamped) :
    PhaseConsistent { state with
      pending
      journal := state.journal ++ [stamped.line day]
      recorded := state.recorded ++ [stamped.line day] } := by
  have holds := consistent.phase
  obtain ⟨fresh, inTime⟩ := timely
  unfold PhaseConsistent at holds ⊢
  cases atPhase : state.phase with
  | idle => trivial
  | started t0 =>
    simp only [atPhase] at holds inTime ⊢
    refine ⟨holds.1, holds.2.1, ?_⟩
    intro line member
    rcases List.mem_append.mp member with old | isNew
    · exact holds.2.2 line old
    · rw [List.mem_singleton.mp isNew]
      exact inTime
  | reading t0 todo collected =>
    simp only [atPhase] at holds inTime ⊢
    obtain ⟨order, past, distinct, collectedRecorded, collects⟩ := holds
    refine ⟨order, past, distinct, ?_, ?_⟩
    · intro line member
      exact List.mem_append_left _ (collectedRecorded line member)
    · intro line member
      rcases List.mem_append.mp member with old | isNew
      · exact collects line old
      · rw [List.mem_singleton.mp isNew]
        refine ⟨?_, inTime.mpr⟩
        have notCollected : collected.count (stamped.line day) = 0 := by
          rw [List.count_eq_zero]
          exact fun listed => unrecorded (collectedRecorded _ listed)
        rw [notCollected, if_neg]
        intro ⟨_, covered, behind⟩
        exact behind (inTime.mp covered)
  | accepted t0 => simpa only [atPhase] using holds
  | acking t0 todo => simpa only [atPhase] using holds
  | rewriting t0 file keep todo =>
    simp only [atPhase] at holds inTime ⊢
    refine ⟨holds.1, ?_⟩
    rw [linesIn_append_of_ne inTime]
    exact holds.2

theorem consistent_append (consistent : Consistent state) (call : Nat)
    (day : String) (timely : TimelyStep state (.append call day)) :
    Consistent (step state (.append call day)) := by
  simp only [step]
  cases found : state.pending.find? fun stamped => stamped.call = call with
  | none => exact consistent
  | some stamped =>
    have member : stamped ∈ state.pending := List.mem_of_find?_eq_some found
    have isCall : stamped.call = call := by simpa using List.find?_some found
    have inTime : Timely state stamped day := timely stamped member isCall
    have past := consistent.pendingPast stamped member
    have unrecorded : stamped.line day ∉ state.recorded := fun recorded =>
      consistent.apart stamped member _ recorded rfl
    have outside : stamped.line day ∉ state.journal := fun listed =>
      unrecorded (consistent.journalRecorded _ listed)
    refine { consistent with
      pendingDistinct := ?_, pendingPast := ?_, recordedPast := ?_, apart := ?_
      journalDistinct := ?_, journalRecorded := ?_, reportsRecorded := ?_
      settled := ?_, waiting := ?_
      phase := inTime.phaseConsistent consistent unrecorded _ }
    · exact consistent.pendingDistinct.sublist (List.filter_sublist.map Stamped.call)
    · intro other remains
      exact consistent.pendingPast other (List.mem_of_mem_filter remains)
    · intro line recorded
      rcases List.mem_append.mp recorded with old | isNew
      · exact consistent.recordedPast line old
      · rw [List.mem_singleton.mp isNew]
        exact past
    · intro other remains line recorded
      obtain ⟨wasPending, notThis⟩ := List.mem_filter.mp remains
      rcases List.mem_append.mp recorded with old | isNew
      · exact consistent.apart other wasPending line old
      · rw [List.mem_singleton.mp isNew]
        intro sameCall
        simp [← sameCall, Stamped.line, isCall] at notThis
    · rw [List.nodup_append]
      refine ⟨consistent.journalDistinct, List.nodup_singleton _, ?_⟩
      intro line listed other isNew same
      rw [List.mem_singleton.mp isNew] at same
      exact outside (same ▸ listed)
    · intro line listed
      rcases List.mem_append.mp listed with old | isNew
      · exact List.mem_append_left _ (consistent.journalRecorded line old)
      · exact List.mem_append_right _ isNew
    · intro report reported line listed
      exact List.mem_append_left _ (consistent.reportsRecorded report reported line listed)
    · intro line recorded acked
      rcases List.mem_append.mp recorded with old | isNew
      · exact consistent.settled line old acked
      · rw [List.mem_singleton.mp isNew] at acked
        exact absurd inTime.1 (not_lt.mpr acked)
    · intro line recorded fresh
      rcases List.mem_append.mp recorded with old | isNew
      · have waits := consistent.waiting line old fresh
        exact ⟨waits.1, List.mem_append_left _ waits.2⟩
      · rw [List.mem_singleton.mp isNew]
        exact ⟨timesReported_eq_zero consistent unrecorded,
          List.mem_append_right _ (List.mem_singleton_self _)⟩

/-! ### Reporting -/

theorem consistent_start (consistent : Consistent state) (now : Int) :
    Consistent (step state (.start now)) := by
  simp only [step]
  cases atPhase : state.phase with
  | idle =>
    simp only
    split
    · rename_i later
      refine { consistent with
        pendingPast := ?_, recordedPast := ?_, ackPast := consistent.ackPast.trans later
        phase := ⟨consistent.ackPast.trans later, le_refl _, ?_⟩ }
      · intro stamped member
        have past := consistent.pendingPast stamped member
        exact ⟨past.1, past.2.trans later⟩
      · intro line member
        have past := consistent.recordedPast line member
        exact ⟨past.1, past.2.trans later⟩
      · intro line member
        exact (consistent.recordedPast line member).2.trans later
    · exact consistent
  | _ => exact consistent

/-- The directory listing names the file of every line still to be reported. -/
theorem consistent_listWindow (consistent : Consistent state) :
    Consistent (step state .listWindow) := by
  have holds := consistent.phase
  simp only [step]
  unfold PhaseConsistent at holds
  cases atPhase : state.phase with
  | started t0 =>
    simp only [atPhase] at holds ⊢
    apply consistent.withPhase
    refine ⟨holds.1, holds.2.1, fileNames_nodup _, by simp, ?_⟩
    intro line member
    refine ⟨?_, fun _ => holds.2.2 line member⟩
    rw [List.count_nil, if_neg]
    intro ⟨fresh, _, unlisted⟩
    have inJournal := (consistent.waiting line member fresh).2
    exact unlisted (mem_fileNames.mpr ⟨line, inJournal, rfl⟩)
  | _ => exact consistent

theorem count_found (consistent : Consistent state) {line : Line}
    (recorded : line ∈ state.recorded) (file : String) :
    (linesAfter state.ackAt (linesIn state.journal file)).count line =
      if state.ackAt < line.event.ts ∧ line.file = file then 1 else 0 := by
  have distinct : (linesAfter state.ackAt (linesIn state.journal file)).Nodup :=
    (consistent.journalDistinct.filter _).filter _
  by_cases fresh : state.ackAt < line.event.ts ∧ line.file = file
  · rw [if_pos fresh]
    apply List.count_eq_one_of_mem distinct
    exact mem_linesAfter.mpr ⟨mem_linesIn.mpr
      ⟨(consistent.waiting line recorded fresh.1).2, fresh.2⟩, fresh.1⟩
  · rw [if_neg fresh, List.count_eq_zero]
    intro found
    obtain ⟨inFile, after⟩ := mem_linesAfter.mp found
    exact fresh ⟨after, (mem_linesIn.mp inFile).2⟩

theorem consistent_readWindow (consistent : Consistent state) :
    Consistent (step state .readWindow) := by
  have holds := consistent.phase
  simp only [step]
  unfold PhaseConsistent at holds
  cases atPhase : state.phase with
  | reading t0 todo collected =>
    cases todo with
    | nil => exact consistent
    | cons file rest =>
      simp only [atPhase] at holds ⊢
      obtain ⟨order, past, distinct, collectedRecorded, collects⟩ := holds
      obtain ⟨fileOnce, restDistinct⟩ := List.nodup_cons.mp distinct
      apply consistent.withPhase
      refine ⟨order, past, restDistinct, ?_, ?_⟩
      · intro line member
        rcases List.mem_append.mp member with old | found
        · exact collectedRecorded line old
        · exact consistent.journalRecorded line
            (mem_linesIn.mp (mem_linesAfter.mp found).1).1
      · intro line member
        have before := collects line member
        refine ⟨?_, fun inRest => before.ahead (List.mem_cons_of_mem _ inRest)⟩
        rw [List.count_append, before.count, count_found consistent member]
        by_cases here : line.file = file
        · have covered := before.ahead (here ▸ List.mem_cons_self)
          simp [here, fileOnce, covered]
        · simp [here]
  | _ => exact consistent

theorem timesReported_add (line : Line) (report : Report) (ackAt : Int) (phase : Phase) :
    State.timesReported { state with reports := state.reports ++ [report], ackAt, phase } line =
      state.timesReported line + report.events.count line := by
  simp [State.timesReported]

/-- The accepted report holds what `t0` covers and no earlier report covered. -/
theorem consistent_accept (consistent : Consistent state) : Consistent (step state .accept) := by
  have holds := consistent.phase
  simp only [step]
  unfold PhaseConsistent at holds
  cases atPhase : state.phase with
  | reading t0 todo collected =>
    cases todo with
    | cons file rest => exact consistent
    | nil =>
      simp only [atPhase] at holds ⊢
      obtain ⟨order, past, -, collectedRecorded, collects⟩ := holds
      refine { consistent with
        ackPast := past, reportsPast := ?_, reportsRecorded := ?_, settled := ?_
        waiting := ?_, phase := rfl }
      · intro report member
        rcases List.mem_append.mp member with old | isNew
        · exact (consistent.reportsPast report old).trans order
        · rw [List.mem_singleton.mp isNew]
      · intro report member
        rcases List.mem_append.mp member with old | isNew
        · exact consistent.reportsRecorded report old
        · rw [List.mem_singleton.mp isNew]
          exact collectedRecorded
      · intro line member covered
        rw [timesReported_add, (collects line member).count]
        by_cases fresh : state.ackAt < line.event.ts
        · rw [(consistent.waiting line member fresh).1, if_pos ⟨fresh, covered, by simp⟩]
        · rw [consistent.settled line member (not_lt.mp fresh), if_neg]
          exact fun collected => fresh collected.1
      · intro line member uncovered
        have waits := consistent.waiting line member (order.trans_lt uncovered)
        refine ⟨?_, waits.2⟩
        rw [timesReported_add, (collects line member).count, waits.1, if_neg]
        exact fun collected => absurd collected.2.1 (not_le.mpr uncovered)
  | _ => exact consistent

theorem consistent_reject (consistent : Consistent state) : Consistent (step state .reject) := by
  simp only [step]
  split
  · exact consistent.withPhase trivial
  · exact consistent

/-! ### Acknowledging -/

theorem consistent_listAck (consistent : Consistent state) : Consistent (step state .listAck) := by
  have holds := consistent.phase
  simp only [step]
  unfold PhaseConsistent at holds
  cases atPhase : state.phase with
  | accepted t0 =>
    simp only [atPhase] at holds
    exact consistent.withPhase holds
  | _ => exact consistent

theorem consistent_readAck (consistent : Consistent state) : Consistent (step state .readAck) := by
  have holds := consistent.phase
  simp only [step]
  unfold PhaseConsistent at holds
  cases atPhase : state.phase with
  | acking t0 todo =>
    simp only [atPhase] at holds
    cases todo with
    | nil => exact consistent.withPhase trivial
    | cons file rest => exact consistent.withPhase ⟨holds, rfl⟩
  | _ => exact consistent

/-- A rewrite of a file nobody appended to since it was read drops the lines
`t0` covers and no others. -/
theorem mem_rewritten {t0 : Int} {line : Line} :
    line ∈ (journal.filter fun other => other.file ≠ file) ++ linesAfter t0 (linesIn journal file) ↔
      line ∈ journal ∧ (line.file = file → t0 < line.event.ts) := by
  rw [List.mem_append, List.mem_filter, mem_linesAfter, mem_linesIn]
  by_cases here : line.file = file <;> simp [here]

theorem consistent_rename (consistent : Consistent state) : Consistent (step state .rename) := by
  have holds := consistent.phase
  simp only [step]
  unfold PhaseConsistent at holds
  cases atPhase : state.phase with
  | rewriting t0 file keep todo =>
    simp only [atPhase] at holds
    obtain ⟨isAck, rfl⟩ := holds
    refine { consistent with
      journalDistinct := ?_, journalRecorded := ?_, waiting := ?_, phase := isAck }
    · rw [List.nodup_append]
      refine ⟨consistent.journalDistinct.filter _,
        (consistent.journalDistinct.filter _).filter _, ?_⟩
      intro line elsewhere other kept same
      have outside := (List.mem_filter.mp elsewhere).2
      have inside := (mem_linesIn.mp (mem_linesAfter.mp kept).1).2
      rw [← same] at inside
      simp [inside] at outside
    · intro line member
      exact consistent.journalRecorded line (mem_rewritten.mp member).1
    · intro line member fresh
      have waits := consistent.waiting line member fresh
      refine ⟨waits.1, mem_rewritten.mpr ⟨waits.2, fun _ => ?_⟩⟩
      rw [isAck]
      exact fresh
  | _ => exact consistent

/-! ### Runs -/

theorem consistent_step (state : State) (action : Action) (consistent : Consistent state)
    (timely : TimelyStep state action) : Consistent (step state action) := by
  cases action with
  | stamp outcome now => exact consistent_stamp consistent outcome now
  | append call day => exact consistent_append consistent call day timely
  | start now => exact consistent_start consistent now
  | listWindow => exact consistent_listWindow consistent
  | readWindow => exact consistent_readWindow consistent
  | accept => exact consistent_accept consistent
  | reject => exact consistent_reject consistent
  | listAck => exact consistent_listAck consistent
  | readAck => exact consistent_readAck consistent
  | rename => exact consistent_rename consistent

theorem Consistent.exactlyOnce (consistent : Consistent state) : ExactlyOnce state := by
  intro line member ⟨report, reported, covered⟩
  exact consistent.settled line member (covered.trans (consistent.reportsPast report reported))

theorem Consistent.removedOnlyReported (consistent : Consistent state) :
    RemovedOnlyReported state := by
  intro line member removed
  by_cases fresh : state.ackAt < line.event.ts
  · exact absurd (consistent.waiting line member fresh).2 removed
  · rw [consistent.settled line member (not_lt.mp fresh)]

/-- In every interleaving whose appends all come in time, every covered event
is in exactly one accepted report and nothing leaves the journal unreported. -/
theorem reported_exactly_once (actions : List Action)
    (timely : EveryStep step TimelyStep State.initial actions) :
    ExactlyOnce (run step State.initial actions) ∧
      RemovedOnlyReported (run step State.initial actions) := by
  have consistent : Consistent (run step State.initial actions) :=
    invariant_run_of_everyStep consistent_step consistent_initial timely
  exact ⟨consistent.exactlyOnce, consistent.removedOnlyReported⟩

def backupOutcome : Outcome where
  op := "backup"

/-- Two reports with a record before, between and during them. -/
def timelyActions : List Action :=
  [.stamp backupOutcome 5, .append 0 "19700101", .start 10, .listWindow, .readWindow,
    .stamp backupOutcome 11, .append 1 "19700101", .accept, .listAck, .readAck, .rename, .readAck,
    .start 20, .listWindow, .readWindow, .accept]

theorem reported_exactly_once_timelyActions :
    (run step State.initial timelyActions).reports.map (fun report => report.events.map Line.call) =
        [[0], [1]] ∧
      ExactlyOnce (run step State.initial timelyActions) ∧
      RemovedOnlyReported (run step State.initial timelyActions) :=
  ⟨by decide +kernel, reported_exactly_once timelyActions (by decide +kernel)⟩

/-- Stamped before a report starts and appended after it read the journal. -/
def lateAppend : List Action :=
  [.stamp backupOutcome 5, .start 10, .listWindow, .accept, .append 0 "19700101", .listAck,
    .readAck, .rename]

/-- Stamped after a report started and appended before it reads the journal. -/
def earlyAppend : List Action :=
  [.start 10, .stamp backupOutcome 11, .append 0 "19700101", .listWindow, .readWindow, .accept,
    .listAck, .readAck, .rename, .readAck, .start 20, .listWindow, .readWindow, .accept]

/-- Appended between the read and the rename of `Ack`. -/
def overwrittenAppend : List Action :=
  [.stamp backupOutcome 5, .append 0 "19700101", .start 10, .listWindow, .readWindow, .accept,
    .listAck, .readAck, .stamp backupOutcome 11, .append 1 "19700101", .rename]

/-- An event can be in no accepted report, in two of them, or be removed from
the journal unreported. -/
theorem journal_loses_and_repeats :
    ¬ ExactlyOnce (run step State.initial lateAppend) ∧
      ¬ ExactlyOnce (run step State.initial earlyAppend) ∧
      ¬ RemovedOnlyReported (run step State.initial overwrittenAppend) := by
  refine ⟨?_, ?_, ?_⟩
  · intro once
    have reported := once (Stamped.line ⟨0, stampEvent backupOutcome 5⟩ "19700101")
      (by decide +kernel) ⟨⟨10, []⟩, by decide +kernel, by decide⟩
    exact absurd reported (by decide +kernel)
  · intro once
    have reported := once (Stamped.line ⟨0, stampEvent backupOutcome 11⟩ "19700101")
      (by decide +kernel)
      ⟨⟨20, [Stamped.line ⟨0, stampEvent backupOutcome 11⟩ "19700101"]⟩, by decide +kernel,
        by decide⟩
    exact absurd reported (by decide +kernel)
  · intro onlyReported
    have reported := onlyReported (Stamped.line ⟨1, stampEvent backupOutcome 11⟩ "19700101")
      (by decide +kernel) (by decide +kernel)
    exact absurd reported (by decide +kernel)

end DbBackup.Stats
