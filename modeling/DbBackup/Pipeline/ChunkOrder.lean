import DbBackup.Pipeline.ChunkInvariant

/-!
Owns the order of the parallel compressor's output.

Contract: `closes_in_order`. However the data is cut into calls of `Write`, and whatever the order
in which the goroutines move, every run ends, with `Close` returned. Without a failure the output
then holds the encodings of the segments in order; with one, `Close` returns an error and the
output holds a prefix of the encodings before the first segment whose encoder failed.
-/

set_option linter.all false

namespace DbBackup.Pipeline.ChunkWriter

open Lib Relation

variable {threads : Int} {encode : Nat → Bytes → Except String Bytes} {data : Bytes} {s t : State}

/-! ### Every run ends -/

def Job.weight : Job → Nat
  | .waiting _ _ => 9
  | .encoding _ _ => 8
  | .sending _ => 7

def Client.weight : Client → Nat
  | .writing rest => 20 + 20 * rest.flatten.length + rest.length
  | .waiting => 3
  | .closed => 2
  | .returned _ => 1

def Phase.weight : Phase → Nat
  | .receiving => 1
  | .writing _ => 4
  | .draining => 2
  | .finished => 0

/-- The number of steps to come is at most this. -/
def State.weight (s : State) : Nat :=
  s.client.weight + (s.jobs.map Job.weight).sum + 6 * s.results.length + s.pending.length +
    s.phase.weight

theorem weight_submit {seg cur : Bytes} {client : Client}
    (lighter : client.weight + 9 < s.client.weight) :
    State.weight { s.submit seg with client, cur } < s.weight := by
  simp only [State.weight, State.submit, List.map_append, List.sum_append, List.map_cons,
    List.map_nil, List.sum_cons, List.sum_nil, Job.weight]
  omega

theorem weight_moves {before after : List Job} {old new : Job}
    (job : s.jobs = before ++ old :: after) (lighter : new.weight < old.weight) :
    State.weight { s with jobs := before ++ new :: after } < s.weight := by
  simp only [State.weight, job, List.map_append, List.map_cons, List.sum_append, List.sum_cons]
  omega

theorem weight_take {p : Bytes} {rest : List Bytes} (calls : s.client = .writing (p :: rest))
    (more : p ≠ []) (room : s.cur.length < rsyncSegmentSize) :
    (s.take p rest).weight < s.weight := by
  have some : 0 < p.length := List.length_pos_iff.mpr more
  have client : s.client.weight =
      20 + 20 * (p.length + rest.flatten.length) + (rest.length + 1) := by
    rw [calls, Client.weight, List.flatten_cons, List.length_append, List.length_cons]
  unfold State.take
  dsimp only
  split
  · refine weight_submit ?_
    rw [client, Client.weight, List.flatten_cons, List.length_append, List.length_cons,
      List.length_drop]
    omega
  · simp only [State.weight]
    rw [client, Client.weight, List.flatten_cons, List.length_append, List.length_cons,
      List.length_drop]
    omega

theorem weight_receive {res : ChunkResult} {rest : List ChunkResult}
    (receives : s.phase = .receiving) (first : s.results = res :: rest) :
    (s.receive res rest).weight < s.weight := by
  have kept : (s.pending.filter fun entry => entry.1 ≠ res.seq).length ≤ s.pending.length :=
    List.length_filter_le ..
  unfold State.receive
  dsimp only
  split
  · simp only [State.weight, first, List.length_cons]
    omega
  · split
    · simp only [State.weight, State.fail, first, receives, Phase.weight, List.length_cons]
      omega
    · split
      · simp only [State.weight, first, receives, Phase.weight, List.length_cons]
        omega
      · simp only [State.weight, first, receives, Phase.weight, List.length_cons]
        omega

theorem weight_due {buf : Bytes} (due : s.due = some buf) :
    (∃ written, s.phase = .writing written) ∨
      s.phase = .draining ∧
        (s.pending.filter fun entry => entry.1 ≠ s.next).length < s.pending.length := by
  unfold State.due at due
  split at due
  next written isWriting => exact .inl ⟨written, isWriting⟩
  next drains =>
    obtain ⟨before, after, shape, -⟩ := List.lookup_eq_some_iff.mp due
    refine .inr ⟨drains, List.length_filter_lt_length_iff_exists.mpr ⟨(s.next, buf), ?_, ?_⟩⟩
    · rw [shape]
      exact List.mem_append_right _ List.mem_cons_self
    · simp
  next => cases due

theorem weight_step (step : Step threads encode s t) (carried : Carried encode data s) :
    t.weight < s.weight := by
  cases step with
  | take calls more => exact weight_take calls more carried.room
  | nextWrite calls =>
    simp only [State.weight, calls, Client.weight, List.flatten_cons, List.nil_append,
      List.length_cons]
    omega
  | close calls =>
    unfold State.close
    split
    · refine weight_submit ?_
      rw [calls]
      decide
    · simp only [State.weight, calls, Client.weight]
      omega
  | closeResults waits noJob =>
    simp only [State.weight, waits, Client.weight]
    omega
  | closeReturns waits finished =>
    simp only [State.weight, waits, Client.weight]
    omega
  | start job slot => exact weight_moves job (Nat.lt_succ_self _)
  | encode job => exact weight_moves job (Nat.lt_succ_self _)
  | send job room =>
    simp only [State.weight, job, List.map_append, List.map_cons, List.sum_append, List.sum_cons,
      List.length_append, List.length_singleton, Job.weight]
    omega
  | receive receives first => exact weight_receive receives first
  | write due =>
    rcases weight_due due with ⟨written, isWriting⟩ | ⟨drains, fewer⟩
    · simp only [State.weight, State.wrote, isWriting, Phase.weight]
      omega
    · simp only [State.weight, State.wrote, drains, Phase.weight]
      omega
  | writeFails due kept err =>
    rcases weight_due due with ⟨written, isWriting⟩ | ⟨drains, fewer⟩
    · simp only [State.weight, State.wroteBadly, State.fail, isWriting, Phase.weight]
      omega
    · simp only [State.weight, State.wroteBadly, State.fail, drains, Phase.weight]
      omega
  | drained drains nothing =>
    simp only [State.weight, drains, Phase.weight]
    omega
  | finish receives empty closed =>
    simp only [State.weight, receives, Phase.weight]
    omega

/-! ### A run goes on until Close has returned -/

def AllStored (s : State) : Prop := ∀ call ∈ s.calls, call.err = none

/-- A step in which no write to the output fails. -/
def GoodStep (threads : Int) (encode : Nat → Bytes → Except String Bytes) (s t : State) : Prop :=
  Step threads encode s t ∧ (AllStored s → AllStored t)

theorem GoodStep.of_calls (step : Step threads encode s t) (same : t.calls = s.calls) :
    GoodStep threads encode s t := by
  refine ⟨step, fun stored => ?_⟩
  rw [AllStored, same]
  exact stored

theorem GoodStep.write {buf : Bytes} (due : s.due = some buf) :
    GoodStep threads encode s (s.wrote buf) := by
  refine ⟨.write due, fun stored call mem => ?_⟩
  rcases List.mem_append.mp mem with old | new
  · exact stored call old
  · rw [List.mem_singleton.mp new]

theorem GoodStep.receive {res : ChunkResult} {rest : List ChunkResult}
    (receives : s.phase = .receiving) (first : s.results = res :: rest) :
    GoodStep threads encode s (s.receive res rest) := by
  refine .of_calls (.receive receives first) ?_
  unfold State.receive
  dsimp only
  split
  · rfl
  · split
    · rfl
    · split <;> rfl

theorem exists_step_of_collector (goesOn : s.phase ≠ .finished)
    (work : s.results ≠ [] ∨ s.phase ≠ .receiving) : ∃ t, GoodStep threads encode s t := by
  cases phase : s.phase with
  | finished => exact absurd phase goesOn
  | writing buf => exact ⟨_, .write (by rw [State.due, phase])⟩
  | draining =>
    cases due : s.due with
    | none => exact ⟨_, .of_calls (.drained phase due) rfl⟩
    | some buf => exact ⟨_, .write due⟩
  | receiving =>
    cases results : s.results with
    | nil => exact absurd work (by simp [results, phase])
    | cons res rest => exact ⟨_, .receive phase results⟩

/-- A goroutine can go on, or the collector takes results out of its way. -/
theorem exists_step_of_job (goesOn : s.phase ≠ .finished) {job : Job} (mem : job ∈ s.jobs) :
    ∃ t, GoodStep threads encode s t := by
  by_cases encodes : ∃ other ∈ s.jobs, other.isEncoding = true
  · obtain ⟨other, member, isEncoding⟩ := encodes
    obtain ⟨before, after, shape⟩ := List.append_of_mem member
    cases other with
    | encoding seq seg => exact ⟨_, .of_calls (.encode shape) rfl⟩
    | waiting seq seg => cases isEncoding
    | sending res => cases isEncoding
  · obtain ⟨before, after, shape⟩ := List.append_of_mem mem
    cases job with
    | encoding seq seg => exact absurd ⟨_, mem, rfl⟩ encodes
    | waiting seq seg =>
      refine ⟨_, .of_calls (.start shape ?_) rfl⟩
      have noneEncodes : s.jobs.countP Job.isEncoding = 0 :=
        List.countP_eq_zero.mpr fun other member isEncoding => encodes ⟨other, member, isEncoding⟩
      rw [noneEncodes, slots]
      split <;> omega
    | sending res =>
      by_cases room : s.results.length < bufSize threads
      · exact ⟨_, .of_calls (.send shape room) rfl⟩
      · refine exists_step_of_collector goesOn (.inl fun empty => room ?_)
        rw [empty, List.length_nil, bufSize]
        omega

theorem returned_of_stuck (closesLast : ClosesLast s) (stuck : ∀ t, ¬ GoodStep threads encode s t) :
    ∃ err, s.client = .returned err := by
  cases client : s.client with
  | returned err => exact ⟨err, rfl⟩
  | writing rest =>
    cases rest with
    | nil =>
      exact absurd (.of_calls (.close client) (by unfold State.close; split <;> rfl)) (stuck _)
    | cons p rest =>
      cases p with
      | nil => exact absurd (.of_calls (.nextWrite client) rfl) (stuck _)
      | cons byte p => exact absurd (.of_calls (.take client (List.cons_ne_nil _ _))
        (by unfold State.take; dsimp only; split <;> rfl)) (stuck _)
  | waiting =>
    have goesOn : s.phase ≠ .finished := by
      intro finished
      have isOver := (closesLast.finished finished).2
      rw [client] at isOver
      cases isOver
    cases jobs : s.jobs with
    | nil => exact absurd (.of_calls (.closeResults client jobs) rfl) (stuck _)
    | cons job rest =>
      obtain ⟨t, step⟩ := exists_step_of_job goesOn (jobs ▸ List.mem_cons_self)
      exact absurd step (stuck t)
  | closed =>
    by_cases finished : s.phase = .finished
    · exact absurd (.of_calls (.closeReturns client finished) rfl) (stuck _)
    · by_cases work : s.results ≠ [] ∨ s.phase ≠ .receiving
      · obtain ⟨t, step⟩ := exists_step_of_collector finished work
        exact absurd step (stuck t)
      · rw [not_or, not_not, not_not] at work
        exact absurd (.of_calls (.finish work.2 work.1 client) rfl) (stuck _)

/-! ### The whole writer -/

/-- The four invariants together. -/
structure Invariant (encode : Nat → Bytes → Except String Bytes) (data : Bytes) (s : State) :
    Prop where
  carried : Carried encode data s
  written : Written (encodings encode data) s
  covered : Covered s
  closesLast : ClosesLast s

theorem Invariant.initially (encode : Nat → Bytes → Except String Bytes) (writes : List Bytes) :
    Invariant encode writes.flatten (newChunkWriter writes) where
  carried := ⟨rsyncSegmentSize_pos, rfl, fun _ => rfl, nofun, nofun, nofun, nofun⟩
  written := ⟨nofun, fun _ => ⟨rfl, nofun, rfl⟩, nofun, nofun⟩
  covered := ⟨fun _ _ below => absurd below (Nat.not_lt_zero _), fun _ _ => nofun⟩
  closesLast := ⟨nofun, nofun, nofun⟩

theorem Invariant.step (step : Step threads encode s t) (holds : Invariant encode data s) :
    Invariant encode data t where
  carried := holds.carried.step step
  written := holds.written.step step holds.carried
  covered := holds.covered.step step
  closesLast := holds.closesLast.step step

/-- All segments are submitted once `Close` is called. -/
theorem Invariant.length_le (holds : Invariant encode data s) (isOver : s.client.isOver = true) :
    (segments data).length ≤ s.seq := by
  have left := holds.carried.left
  have noRest : s.client.rest = [] ∧ ∀ rest, s.client ≠ .writing rest := by
    cases client : s.client with
    | writing rest =>
      rw [client] at isOver
      cases isOver
    | waiting => exact ⟨rfl, nofun⟩
    | closed => exact ⟨rfl, nofun⟩
    | returned err => exact ⟨rfl, nofun⟩
  rw [noRest.1, holds.carried.noRest noRest.2] at left
  exact List.drop_eq_nil_iff.mp left

/-- When the collector has finished without an error, everything is written. -/
theorem Invariant.next_of_finished (holds : Invariant encode data s)
    (finished : s.phase = .finished) (going : s.stopped = false) : s.seq ≤ s.next := by
  obtain ⟨noResult, isOver⟩ := holds.closesLast.finished finished
  have noJob := holds.closesLast.noJob isOver
  by_contra notAll
  rcases holds.covered.all going s.next (Nat.lt_of_not_le notAll) with
    before | ⟨job, mem, -⟩ | ⟨res, mem, -⟩ | ⟨entry, mem, isNext⟩ | ⟨-, buf, isWriting⟩
  · exact absurd before (Nat.lt_irrefl _)
  · rw [noJob] at mem
    cases mem
  · rw [noResult] at mem
    cases mem
  · exact holds.covered.drained going (.inr finished) entry mem isNext
  · rw [finished] at isWriting
    cases isWriting

theorem length_encodings : (encodings encode data).length = (segments data).length :=
  List.length_mapIdx

/-- A finished collector that did not stop wrote the encodings of all segments. -/
theorem Invariant.all_written (holds : Invariant encode data s) (finished : s.phase = .finished)
    (going : s.stopped = false) : (encodings encode data).take s.next = encodings encode data := by
  refine List.take_of_length_le ?_
  rw [length_encodings]
  exact Nat.le_trans (holds.length_le (holds.closesLast.finished finished).2)
    (holds.next_of_finished finished going)

/-- Good encodings at the beginning stand before the first one that failed. -/
theorem prefix_encodedBefore {results : List (Except String Bytes)} {n : Nat} {out : Bytes}
    (good : ∀ result ∈ results.take n, isOk result = true)
    (stored : out <+: (results.take n).flatMap okBytes) : out <+: encodedBefore results := by
  have early : results.take n <+: results.takeWhile isOk := by
    have whole : (results.take n ++ results.drop n).takeWhile isOk =
        results.take n ++ (results.drop n).takeWhile isOk := List.takeWhile_append_of_pos good
    rw [List.take_append_drop] at whole
    rw [whole]
    exact List.prefix_append ..
  obtain ⟨more, shape⟩ := early
  refine stored.trans ?_
  rw [encodedBefore, ← shape, List.flatMap_append]
  exact List.prefix_append ..

theorem Invariant.good {err : Option String} (holds : Invariant encode data s)
    (returned : s.client = .returned err)
    (encoded : ∀ result ∈ encodings encode data, isOk result = true) (stored : AllStored s) :
    err = none ∧ s.out = (encodings encode data).flatMap okBytes := by
  obtain ⟨finished, isErr⟩ := holds.closesLast.returned err returned
  cases stopped : s.stopped with
  | false =>
    obtain ⟨noErr, -, out⟩ := holds.written.going stopped
    rw [holds.all_written finished stopped] at out
    exact ⟨isErr.trans noErr, out⟩
  | true =>
    rcases (holds.written.stopped stopped).2.1 with ⟨result, mem, bad⟩ | ⟨call, mem, bad⟩
    · exact absurd ((encoded result mem).symm.trans bad) (by decide)
    · exact absurd (stored call mem) bad

theorem Invariant.failed {err : Option String} (holds : Invariant encode data s)
    (returned : s.client = .returned err)
    (failure : (∃ result ∈ encodings encode data, isOk result = false) ∨
      ∃ call ∈ s.calls, call.err ≠ none) :
    err ≠ none ∧ s.out <+: encodedBefore (encodings encode data) := by
  obtain ⟨finished, isErr⟩ := holds.closesLast.returned err returned
  cases stopped : s.stopped with
  | false =>
    have done := holds.written.done
    rw [holds.all_written finished stopped] at done
    rcases failure with ⟨result, mem, bad⟩ | ⟨call, mem, bad⟩
    · exact absurd ((done result mem).symm.trans bad) (by decide)
    · exact absurd ((holds.written.going stopped).2.1 call mem) bad
  | true =>
    obtain ⟨someErr, -, n, good, out⟩ := holds.written.stopped stopped
    exact ⟨isErr ▸ someErr, prefix_encodedBefore good out⟩

theorem reaches_invariant {writes : List Bytes} (run : Reaches threads encode writes s) :
    Invariant encode writes.flatten s :=
  Reach.invariant_of_reaches (fun _ _ step holds => holds.step step) run
    (Invariant.initially encode writes)

/-- What is expected of a writer that is given these calls of `Write`. -/
structure ClosesInOrder (threads : Int) (encode : Nat → Bytes → Except String Bytes)
    (writes : List Bytes) : Prop where
  ends : Reach.Ends (Step threads encode) (newChunkWriter writes)
  returns : ∀ s, Reaches threads encode writes s → (∀ t, ¬ Step threads encode s t) →
    ∃ err, s.client = .returned err
  good : ∀ s err, Reaches threads encode writes s → s.client = .returned err →
    (∀ result ∈ encodings encode writes.flatten, isOk result = true) →
    (∀ call ∈ s.calls, call.err = none) →
    err = none ∧ s.out = (encodings encode writes.flatten).flatMap okBytes
  failed : ∀ s err, Reaches threads encode writes s → s.client = .returned err →
    (∃ result ∈ encodings encode writes.flatten, isOk result = false) ∨
      (∃ call ∈ s.calls, call.err ≠ none) →
    err ≠ none ∧ s.out <+: encodedBefore (encodings encode writes.flatten)

theorem closes_in_order (threads : Int) (encode : Nat → Bytes → Except String Bytes)
    (writes : List Bytes) : ClosesInOrder threads encode writes where
  ends := Reach.ends_of_measure (fun _ _ step holds => holds.step step) State.weight
    (fun _ _ step holds => weight_step step holds.carried) (Invariant.initially encode writes)
  returns := fun _ run stuck =>
    returned_of_stuck (reaches_invariant run).closesLast fun t good => stuck t good.1
  good := fun _ _ run returned encoded stored =>
    (reaches_invariant run).good returned encoded stored
  failed := fun _ _ run returned failure => (reaches_invariant run).failed returned failure

/-- Some run stores every write it makes and returns. -/
theorem exists_allStored (threads : Int) (encode : Nat → Bytes → Except String Bytes)
    (writes : List Bytes) :
    ∃ s err, Reaches threads encode writes s ∧ s.client = .returned err ∧ AllStored s := by
  obtain ⟨s, goodRun, stuck⟩ := @Reach.exists_stuck _ (GoodStep threads encode) _
    (Reach.ends_of_measure (fun _ _ good (holds : Invariant encode _ _) => holds.step good.1)
      State.weight (fun _ _ good holds => weight_step good.1 holds.carried)
      (Invariant.initially encode writes))
  have run : Reaches threads encode writes s :=
    ReflTransGen.mono (fun _ _ good => good.1) _ _ goodRun
  obtain ⟨err, returned⟩ := returned_of_stuck (reaches_invariant run).closesLast stuck
  have stored : AllStored s := Reach.invariant_of_reaches (fun _ _ good => good.2) goodRun nofun
  exact ⟨s, err, run, returned, stored⟩

end DbBackup.Pipeline.ChunkWriter
