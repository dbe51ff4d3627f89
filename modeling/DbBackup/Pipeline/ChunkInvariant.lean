import DbBackup.Pipeline.ChunkWriter

/-!
Owns the invariants of the parallel compressor: what is on its way belongs to its segment
(`Carried`), what is written is an initial part of the encodings (`Written`), no segment is lost
(`Covered`), and `Close` returns last (`ClosesLast`). Each is kept by every step.
-/

set_option linter.all false

namespace DbBackup.Pipeline.ChunkWriter

open Lib

variable {threads : Int} {encode : Nat → Bytes → Except String Bytes} {data : Bytes} {s t : State}

/-! ### What is on its way -/

def Job.Carries (encode : Nat → Bytes → Except String Bytes) (data : Bytes) : Job → Prop
  | .waiting seq seg => (segments data)[seq]? = some seg
  | .encoding seq seg => (segments data)[seq]? = some seg
  | .sending res => (encodings encode data)[res.seq]? = some res.buf

structure Carried (encode : Nat → Bytes → Except String Bytes) (data : Bytes) (s : State) :
    Prop where
  room : s.cur.length < rsyncSegmentSize
  left : (segments data).drop s.seq =
    Chunks.chunks rsyncSegmentSize s.cur s.client.rest.flatten
  noRest : (∀ rest, s.client ≠ .writing rest) → s.cur = []
  jobs : ∀ job ∈ s.jobs, job.Carries encode data
  results : ∀ res ∈ s.results, (encodings encode data)[res.seq]? = some res.buf
  pending : ∀ entry ∈ s.pending, (encodings encode data)[entry.1]? = some (.ok entry.2)
  due : ∀ buf, s.phase = .writing buf → (encodings encode data)[s.next]? = some (.ok buf)

theorem getElem?_of_drop {α : Type*} {xs rest : List α} {n : Nat} {x : α}
    (shape : xs.drop n = x :: rest) : xs[n]? = some x ∧ xs.drop (n + 1) = rest := by
  constructor
  · rw [← Nat.add_zero n, ← List.getElem?_drop, shape]
    rfl
  · rw [← List.drop_drop, shape]
    rfl

/-- A segment is submitted in its turn. -/
theorem Carried.submit (carried : Carried encode data s) {seg : Bytes} {client : Client}
    (segment : (segments data).drop s.seq =
      seg :: Chunks.chunks rsyncSegmentSize [] client.rest.flatten) :
    Carried encode data { s.submit seg with client, cur := [] } where
  room := rsyncSegmentSize_pos
  left := (getElem?_of_drop segment).2
  noRest := fun _ => rfl
  jobs := by
    intro job mem
    rcases List.mem_append.mp mem with old | new
    · exact carried.jobs job old
    · rw [List.mem_singleton.mp new]
      exact (getElem?_of_drop segment).1
  results := carried.results
  pending := carried.pending
  due := carried.due

theorem Carried.take (carried : Carried encode data s) {p : Bytes} {rest : List Bytes}
    (calls : s.client = .writing (p :: rest)) : Carried encode data (s.take p rest) := by
  have left := carried.left
  have room := carried.room
  rw [calls, Client.rest, List.flatten_cons] at left
  unfold State.take
  dsimp only
  split
  next full =>
    rw [List.length_append, List.length_take] at full
    rw [Chunks.chunks_append_full room (by omega)] at left
    exact carried.submit left
  next part =>
    rw [List.length_append, List.length_take] at part
    have short : p.length ≤ rsyncSegmentSize - s.cur.length := by omega
    rw [Chunks.chunks_append_part (by omega)] at left
    rw [List.take_of_length_le short, List.drop_of_length_le short]
    exact ⟨by rw [List.length_append]; omega, left, fun none => absurd rfl (none _),
      carried.jobs, carried.results, carried.pending, carried.due⟩

theorem Carried.close (carried : Carried encode data s) (calls : s.client = .writing []) :
    Carried encode data s.close := by
  have left := carried.left
  rw [calls, Client.rest, List.flatten_nil, Chunks.chunks] at left
  unfold State.close
  split
  next some =>
    rw [if_neg (by rw [List.isEmpty_iff_length_eq_zero]; omega)] at left
    exact carried.submit left
  next none =>
    have empty : s.cur = [] := List.length_eq_zero_iff.mp (by omega)
    rw [empty] at left
    refine ⟨carried.room, ?_, fun _ => empty, carried.jobs, carried.results, carried.pending,
      carried.due⟩
    rw [empty]
    exact left

/-- A job that moves on stays with its segment. -/
theorem Carried.moves (carried : Carried encode data s) {before after : List Job} {job : Job}
    (old : ∃ previous, s.jobs = before ++ previous :: after) (carries : job.Carries encode data) :
    Carried encode data { s with jobs := before ++ job :: after } := by
  obtain ⟨previous, shape⟩ := old
  refine { carried with jobs := fun other mem => ?_ }
  have jobs := carried.jobs
  rw [shape] at jobs
  rcases List.mem_append.mp mem with early | late
  · exact jobs other (List.mem_append_left _ early)
  · rcases List.mem_cons.mp late with same | later
    · exact same ▸ carries
    · exact jobs other (List.mem_append_right _ (List.mem_cons_of_mem _ later))

theorem Carried.send (carried : Carried encode data s) {before after : List Job}
    {res : ChunkResult} (job : s.jobs = before ++ .sending res :: after) :
    Carried encode data { s with jobs := before ++ after, results := s.results ++ [res] } := by
  have jobs := carried.jobs
  rw [job] at jobs
  refine { carried with jobs := fun other mem => ?_, results := fun other mem => ?_ }
  · rcases List.mem_append.mp mem with early | late
    · exact jobs other (List.mem_append_left _ early)
    · exact jobs other (List.mem_append_right _ (List.mem_cons_of_mem _ late))
  · rcases List.mem_append.mp mem with old | new
    · exact carried.results other old
    · rw [List.mem_singleton.mp new]
      exact jobs (.sending res) (List.mem_append_right _ List.mem_cons_self)

theorem Carried.receive (carried : Carried encode data s) {res : ChunkResult}
    {rest : List ChunkResult} (first : s.results = res :: rest) :
    Carried encode data (s.receive res rest) := by
  have results := carried.results
  rw [first] at results
  have popped : Carried encode data { s with results := rest } :=
    { carried with results := (List.forall_mem_cons.mp results).2 }
  have own := results res List.mem_cons_self
  unfold State.receive
  dsimp only
  split
  next => exact popped
  next =>
    split
    next err _ => exact { popped with due := fun buf isWriting => by cases isWriting }
    next buf good =>
      rw [good] at own
      split
      next turn =>
        refine { popped with due := fun written isWriting => ?_ }
        cases isWriting
        rw [← turn]
        exact own
      next early =>
        refine { popped with pending := fun entry mem => ?_ }
        rcases List.mem_cons.mp mem with same | old
        · rw [same]
          exact own
        · exact carried.pending entry (List.mem_of_mem_filter old)

theorem Carried.step (step : Step threads encode s t) (carried : Carried encode data s) :
    Carried encode data t := by
  cases step with
  | take calls more => exact carried.take calls
  | nextWrite calls =>
    have left := carried.left
    rw [calls] at left
    exact { carried with left := left, noRest := fun none => absurd rfl (none _) }
  | close calls => exact carried.close calls
  | closeResults waits noJob =>
    have left := carried.left
    have noRest := carried.noRest
    rw [waits] at left noRest
    exact { carried with left := left, noRest := fun _ => noRest (by rintro _ ⟨⟩) }
  | closeReturns waits finished =>
    have left := carried.left
    have noRest := carried.noRest
    rw [waits] at left noRest
    exact { carried with left := left, noRest := fun _ => noRest (by rintro _ ⟨⟩) }
  | @start before after seq seg job slot =>
    have own := carried.jobs (.waiting seq seg)
      (job ▸ List.mem_append_right _ List.mem_cons_self)
    exact carried.moves ⟨_, job⟩ own
  | encode job =>
    refine carried.moves ⟨_, job⟩ ?_
    have own := carried.jobs _ (job ▸ List.mem_append_right _ List.mem_cons_self)
    rw [Job.Carries] at own
    rw [Job.Carries, encodings, List.getElem?_mapIdx, own]
    rfl
  | send job room => exact carried.send job
  | receive receives first => exact carried.receive first
  | write due =>
    refine { carried with pending := fun entry mem => carried.pending entry ?_,
                          due := fun buf isWriting => by cases isWriting }
    revert mem
    simp only [State.wrote]
    split
    · exact List.mem_of_mem_filter
    · exact id
  | writeFails due kept err => exact { carried with due := fun buf isWriting => by cases isWriting }
  | drained drains nothing => exact { carried with due := fun buf isWriting => by cases isWriting }
  | finish receives empty closed =>
    exact { carried with due := fun buf isWriting => by cases isWriting }

/-! ### What is written -/

structure Written (results : List (Except String Bytes)) (s : State) : Prop where
  done : ∀ result ∈ results.take s.next, isOk result = true
  going : s.stopped = false → s.firstErr = none ∧ (∀ call ∈ s.calls, call.err = none) ∧
    s.out = (results.take s.next).flatMap okBytes
  stopped : s.stopped = true → s.firstErr ≠ none ∧
    ((∃ result ∈ results, isOk result = false) ∨ ∃ call ∈ s.calls, call.err ≠ none) ∧
    ∃ n, (∀ result ∈ results.take n, isOk result = true) ∧
      s.out <+: (results.take n).flatMap okBytes
  rests : s.stopped = true → s.phase = .receiving ∨ s.phase = .finished

theorem out_append {s : State} {calls : List Call} {stored : Bytes} {err : Option String}
    (shape : s.calls = calls ++ [⟨stored, err⟩]) : s.out = calls.flatMap Call.stored ++ stored := by
  rw [State.out, shape, List.flatMap_append]
  simp only [List.flatMap_cons, List.flatMap_nil, List.append_nil]

variable {results : List (Except String Bytes)} {buf : Bytes}

theorem take_next {n : Nat}
    (due : results[n]? = some (.ok buf)) : results.take (n + 1) = results.take n ++ [.ok buf] := by
  rw [List.take_add_one, due]
  rfl

/-- The result that is due was encoded well. -/
theorem Carried.due_spec (carried : Carried encode data s) (due : s.due = some buf) :
    (encodings encode data)[s.next]? = some (.ok buf) := by
  unfold State.due at due
  split at due
  next written isWriting =>
    cases due
    exact carried.due _ isWriting
  next => exact carried.pending _ (List.lookup_eq_some_iff.mp due |>.elim fun before rest => by
    obtain ⟨after, shape, -⟩ := rest
    rw [shape]
    exact List.mem_append_right _ List.mem_cons_self)
  next => cases due

theorem Written.notStopped (written : Written results s)
    (due : s.due = some buf) : s.stopped = false := by
  cases stopped : s.stopped with
  | false => rfl
  | true =>
    rcases written.rests stopped with receives | finished
    · rw [State.due, receives] at due
      cases due
    · rw [State.due, finished] at due
      cases due

theorem Written.write (written : Written results s)
    (due : s.due = some buf) (own : results[s.next]? = some (.ok buf)) :
    Written results (s.wrote buf) := by
  have notStopped := written.notStopped due
  obtain ⟨noErr, callsOk, out⟩ := written.going notStopped
  refine ⟨?_, fun _ => ⟨noErr, ?_, ?_⟩, fun stopped => ?_, fun stopped => ?_⟩
  · change ∀ result ∈ results.take (s.next + 1), isOk result = true
    rw [take_next own]
    intro result mem
    rcases List.mem_append.mp mem with old | new
    · exact written.done result old
    · rw [List.mem_singleton.mp new]
      rfl
  · intro call mem
    rcases List.mem_append.mp mem with old | new
    · exact callsOk call old
    · rw [List.mem_singleton.mp new]
  · change (s.wrote buf).out = (results.take (s.next + 1)).flatMap okBytes
    rw [out_append (s := s.wrote buf) rfl, take_next own, List.flatMap_append, ← out]
    simp only [State.out, List.flatMap_cons, List.flatMap_nil, List.append_nil, okBytes]
  · exact absurd (stopped.symm.trans notStopped) (by decide)
  · exact absurd (stopped.symm.trans notStopped) (by decide)

theorem Written.writeFails (written : Written results s)
    (due : s.due = some buf) (own : results[s.next]? = some (.ok buf))
    (kept : Nat) (err : String) : Written results (s.wroteBadly (buf.take kept) err) := by
  obtain ⟨-, -, out⟩ := written.going (written.notStopped due)
  refine ⟨written.done, fun going => (by cases going), fun _ => ⟨(by rintro ⟨⟩), ?_, ?_⟩,
    fun _ => .inl rfl⟩
  · exact .inr ⟨_, List.mem_append_right _ (List.mem_singleton_self _), by rintro ⟨⟩⟩
  · refine ⟨s.next + 1, ?_, ?_⟩
    · rw [take_next own]
      intro result mem
      rcases List.mem_append.mp mem with old | new
      · exact written.done result old
      · rw [List.mem_singleton.mp new]
        rfl
    · rw [out_append (s := s.wroteBadly (buf.take kept) err) rfl, take_next own,
        List.flatMap_append, ← out]
      refine (List.prefix_append_right_inj _).mpr ?_
      simp only [List.flatMap_cons, List.flatMap_nil, List.append_nil, okBytes]
      exact List.take_prefix kept buf

theorem Written.receive {results : List (Except String Bytes)} (written : Written results s)
    {res : ChunkResult} {rest : List ChunkResult} (own : results[res.seq]? = some res.buf) :
    Written results (s.receive res rest) := by
  unfold State.receive
  dsimp only
  split
  next => exact { written with }
  next going =>
    have notStopped : s.stopped = false := Bool.eq_false_iff.mpr going
    split
    next err failed =>
      obtain ⟨-, -, out⟩ := written.going notStopped
      refine ⟨written.done, fun going => (by cases going), fun _ => ⟨(by rintro ⟨⟩), ?_, ?_⟩,
        fun _ => .inl rfl⟩
      · rw [failed] at own
        exact .inl ⟨_, List.mem_of_getElem? own, rfl⟩
      · exact ⟨s.next, written.done, out ▸ List.prefix_refl _⟩
    next buf good =>
      split
      next turn =>
        exact { written with rests := fun stopped => absurd stopped going }
      next => exact { written with }

theorem Written.step (step : Step threads encode s t) (carried : Carried encode data s)
    (written : Written (encodings encode data) s) : Written (encodings encode data) t := by
  cases step with
  | take calls more =>
    unfold State.take
    dsimp only
    split
    · exact { written with }
    · exact { written with }
  | close calls =>
    unfold State.close
    split
    · exact { written with }
    · exact { written with }
  | receive receives first =>
    exact written.receive (carried.results _ (first ▸ List.mem_cons_self))
  | write due => exact written.write due (carried.due_spec due)
  | writeFails due kept err => exact written.writeFails due (carried.due_spec due) kept err
  | drained drains nothing => exact { written with rests := fun _ => .inl rfl }
  | finish receives empty closed => exact { written with rests := fun _ => .inr rfl }
  | nextWrite => exact { written with }
  | closeResults => exact { written with }
  | closeReturns => exact { written with }
  | start => exact { written with }
  | encode => exact { written with }
  | send => exact { written with }

/-! ### No segment is lost -/

/-- Written, with a goroutine, sent, kept, or about to be written. -/
def Somewhere (s : State) (i : Nat) : Prop :=
  i < s.next ∨ (∃ job ∈ s.jobs, job.seq = i) ∨ (∃ res ∈ s.results, res.seq = i) ∨
    (∃ entry ∈ s.pending, entry.1 = i) ∨ (i = s.next ∧ ∃ buf, s.phase = .writing buf)

structure Covered (s : State) : Prop where
  all : s.stopped = false → ∀ i < s.seq, Somewhere s i
  drained : s.stopped = false → s.phase = .receiving ∨ s.phase = .finished →
    ∀ entry ∈ s.pending, entry.1 ≠ s.next

theorem Covered.submit (covered : Covered s) (seg : Bytes) (client : Client) (cur : Bytes) :
    Covered { s.submit seg with client, cur } := by
  refine ⟨fun going i below => ?_, covered.drained⟩
  rcases Nat.lt_succ_iff_lt_or_eq.mp below with old | new
  · rcases covered.all going i old with written | ⟨job, mem, isIt⟩ | elsewhere
    · exact .inl written
    · exact .inr (.inl ⟨job, List.mem_append_left _ mem, isIt⟩)
    · exact .inr (.inr elsewhere)
  · exact .inr (.inl ⟨.waiting s.seq seg, List.mem_append_right _ (List.mem_singleton_self _),
      new.symm⟩)

/-- A goroutine moves on with the same segment. -/
theorem Covered.moves (covered : Covered s) {before after : List Job} {old new : Job}
    (job : s.jobs = before ++ old :: after) (same : new.seq = old.seq) :
    Covered { s with jobs := before ++ new :: after } := by
  refine ⟨fun going i below => ?_, covered.drained⟩
  rcases covered.all going i below with written | ⟨other, mem, isIt⟩ | elsewhere
  · exact .inl written
  · rw [job] at mem
    rcases List.mem_append.mp mem with early | late
    · exact .inr (.inl ⟨other, List.mem_append_left _ early, isIt⟩)
    · rcases List.mem_cons.mp late with own | later
      · rw [own] at isIt
        exact .inr (.inl ⟨new, List.mem_append_right _ List.mem_cons_self, same.trans isIt⟩)
      · exact .inr (.inl ⟨other, List.mem_append_right _ (List.mem_cons_of_mem _ later), isIt⟩)
  · exact .inr (.inr elsewhere)

theorem Covered.send (covered : Covered s) {before after : List Job} {res : ChunkResult}
    (job : s.jobs = before ++ .sending res :: after) :
    Covered { s with jobs := before ++ after, results := s.results ++ [res] } := by
  refine ⟨fun going i below => ?_, covered.drained⟩
  rcases covered.all going i below with written | ⟨other, mem, isIt⟩ | ⟨sent, mem, isIt⟩ | elsewhere
  · exact .inl written
  · rw [job] at mem
    rcases List.mem_append.mp mem with early | late
    · exact .inr (.inl ⟨other, List.mem_append_left _ early, isIt⟩)
    · rcases List.mem_cons.mp late with own | later
      · rw [own] at isIt
        exact .inr (.inr (.inl ⟨res, List.mem_append_right _ (List.mem_singleton_self _), isIt⟩))
      · exact .inr (.inl ⟨other, List.mem_append_right _ later, isIt⟩)
  · exact .inr (.inr (.inl ⟨sent, List.mem_append_left _ mem, isIt⟩))
  · exact .inr (.inr (.inr elsewhere))

theorem Covered.receive (covered : Covered s) {res : ChunkResult} {rest : List ChunkResult}
    (receives : s.phase = .receiving) (first : s.results = res :: rest) :
    Covered (s.receive res rest) := by
  unfold State.receive
  dsimp only
  split
  next stopped =>
    exact ⟨fun going => absurd (stopped.symm.trans going) (by decide),
      fun going => absurd (stopped.symm.trans going) (by decide)⟩
  next going =>
    have notStopped : s.stopped = false := Bool.eq_false_iff.mpr going
    split
    next err failed => exact ⟨fun going => (by cases going), fun going => (by cases going)⟩
    next buf good =>
      -- Only the segment of the result changes its place.
      have others : ∀ i < s.seq, i = res.seq ∨ i < s.next ∨ (∃ job ∈ s.jobs, job.seq = i) ∨
          (∃ other ∈ rest, other.seq = i) ∨ ∃ entry ∈ s.pending, entry.1 = i := by
        intro i below
        rcases covered.all notStopped i below with
          written | withJob | ⟨sent, mem, isIt⟩ | kept | ⟨-, buf, isWriting⟩
        · exact .inr (.inl written)
        · exact .inr (.inr (.inl withJob))
        · rw [first] at mem
          rcases List.mem_cons.mp mem with own | later
          · exact .inl (own ▸ isIt.symm)
          · exact .inr (.inr (.inr (.inl ⟨sent, later, isIt⟩)))
        · exact .inr (.inr (.inr (.inr kept)))
        · rw [receives] at isWriting
          cases isWriting
      split
      next turn =>
        refine ⟨fun _ i below => ?_, fun _ rests => rests.elim nofun nofun⟩
        rcases others i below with own | written | withJob | sent | kept
        · exact .inr (.inr (.inr (.inr ⟨own.trans turn, buf, rfl⟩)))
        · exact .inl written
        · exact .inr (.inl withJob)
        · exact .inr (.inr (.inl sent))
        · exact .inr (.inr (.inr (.inl kept)))
      next early =>
        refine ⟨fun _ i below => ?_, fun _ rests entry mem => ?_⟩
        · rcases others i below with own | written | withJob | sent | ⟨entry, mem, isIt⟩
          · exact .inr (.inr (.inr (.inl ⟨(res.seq, buf), List.mem_cons_self, own.symm⟩)))
          · exact .inl written
          · exact .inr (.inl withJob)
          · exact .inr (.inr (.inl sent))
          · by_cases same : i = res.seq
            · exact .inr (.inr (.inr (.inl ⟨(res.seq, buf), List.mem_cons_self, same.symm⟩)))
            · refine .inr (.inr (.inr (.inl ⟨entry, List.mem_cons_of_mem _ ?_, isIt⟩)))
              exact List.mem_filter.mpr ⟨mem, decide_eq_true (isIt ▸ same)⟩
        · rcases List.mem_cons.mp mem with own | old
          · rw [own]
            exact early
          · exact covered.drained notStopped rests entry (List.mem_of_mem_filter old)

theorem Covered.write (covered : Covered s) (buf : Bytes) : Covered (s.wrote buf) := by
  refine ⟨fun going i below => ?_, fun _ rests => rests.elim nofun nofun⟩
  by_cases new : i < s.next + 1
  · exact .inl new
  · rcases covered.all going i below with
      written | withJob | sent | ⟨entry, mem, isIt⟩ | ⟨isNext, -⟩
    · exact .inl (Nat.lt_succ_of_lt written)
    · exact .inr (.inl withJob)
    · exact .inr (.inr (.inl sent))
    · refine .inr (.inr (.inr (.inl ⟨entry, ?_, isIt⟩)))
      simp only [State.wrote]
      split
      · exact List.mem_filter.mpr ⟨mem, decide_eq_true (by omega)⟩
      · exact mem
    · omega

theorem Covered.phase (covered : Covered s) (notWriting : ∀ buf, s.phase ≠ .writing buf)
    (phase : Phase) (going : s.stopped = false) :
    ∀ i < s.seq, Somewhere { s with phase } i := by
  intro i below
  rcases covered.all going i below with written | withJob | sent | kept | ⟨-, buf, isWriting⟩
  · exact .inl written
  · exact .inr (.inl withJob)
  · exact .inr (.inr (.inl sent))
  · exact .inr (.inr (.inr (.inl kept)))
  · exact absurd isWriting (notWriting buf)

theorem Covered.step (step : Step threads encode s t) (covered : Covered s) : Covered t := by
  cases step with
  | take calls more =>
    unfold State.take
    dsimp only
    split
    · exact covered.submit _ _ _
    · exact { covered with }
  | close calls =>
    unfold State.close
    split
    · exact covered.submit _ _ _
    · exact { covered with }
  | start job slot => exact covered.moves job rfl
  | encode job => exact covered.moves job rfl
  | send job room => exact covered.send job
  | receive receives first => exact covered.receive receives first
  | write due => exact covered.write _
  | writeFails due kept err => exact ⟨fun going => (by cases going), fun going => (by cases going)⟩
  | drained drains nothing =>
    refine ⟨covered.phase (by rintro buf isWriting; rw [drains] at isWriting; cases isWriting) _,
      fun going _ entry mem isNext => ?_⟩
    rw [State.due, drains] at nothing
    have absent := List.lookup_eq_none_iff.mp nothing entry mem
    rw [isNext] at absent
    simp at absent
  | finish receives empty closed =>
    exact ⟨covered.phase
      (by rintro buf isWriting; rw [receives] at isWriting; cases isWriting) _,
      fun going _ => covered.drained going (.inl receives)⟩
  | nextWrite => exact { covered with }
  | closeResults => exact { covered with }
  | closeReturns => exact { covered with }

/-! ### Close returns last -/

def Client.isOver : Client → Bool
  | .closed => true
  | .returned _ => true
  | _ => false

structure ClosesLast (s : State) : Prop where
  noJob : s.client.isOver = true → s.jobs = []
  finished : s.phase = .finished → s.results = [] ∧ s.client.isOver = true
  returned : ∀ err, s.client = .returned err → s.phase = .finished ∧ err = s.firstErr

/-- The client goes on before the results are closed. -/
theorem ClosesLast.goesOn (closesLast : ClosesLast s) (isOpen : s.client.isOver = false)
    (samePhase : t.phase = s.phase) (stillOpen : t.client.isOver = false) : ClosesLast t where
  noJob := fun isOver => absurd (isOver.symm.trans stillOpen) (by decide)
  finished := by
    intro finished
    have wasOver := (closesLast.finished (samePhase ▸ finished)).2
    exact absurd (wasOver.symm.trans isOpen) (by decide)
  returned := by
    intro err returned
    rw [returned] at stillOpen
    cases stillOpen

/-- A goroutine is at work only before the results are closed. -/
theorem ClosesLast.isOpen_of_job (closesLast : ClosesLast s) {before after : List Job} {job : Job}
    (shape : s.jobs = before ++ job :: after) : s.client.isOver = false := by
  refine Bool.eq_false_iff.mpr fun isOver => ?_
  have noJob := closesLast.noJob isOver
  rw [shape] at noJob
  exact absurd noJob (by simp)

/-- The collector goes on before it has finished. -/
theorem ClosesLast.collects (closesLast : ClosesLast s) (goesOn : s.phase ≠ .finished)
    (client : t.client = s.client) (jobs : t.jobs = s.jobs) (stillOn : t.phase ≠ .finished) :
    ClosesLast t where
  noJob := fun isOver => jobs ▸ closesLast.noJob (client ▸ isOver)
  finished := fun finished => absurd finished stillOn
  returned := fun err returned => absurd (closesLast.returned err (client ▸ returned)).1 goesOn

theorem notFinished_of_due (due : s.due = some buf) : s.phase ≠ .finished := by
  intro finished
  rw [State.due, finished] at due
  cases due

theorem ClosesLast.step (step : Step threads encode s t) (closesLast : ClosesLast s) :
    ClosesLast t := by
  cases step with
  | take calls more =>
    refine closesLast.goesOn (calls ▸ rfl) ?_ ?_
    · unfold State.take
      dsimp only
      split <;> rfl
    · unfold State.take
      dsimp only
      split <;> rfl
  | nextWrite calls => exact closesLast.goesOn (calls ▸ rfl) rfl rfl
  | close calls =>
    refine closesLast.goesOn (calls ▸ rfl) ?_ ?_
    · unfold State.close
      split <;> rfl
    · unfold State.close
      split <;> rfl
  | closeResults waits noJob =>
    refine ⟨fun _ => noJob, fun finished => ?_, fun err returned => (by cases returned)⟩
    have wasOver := (closesLast.finished finished).2
    rw [waits] at wasOver
    cases wasOver
  | closeReturns waits finished =>
    refine ⟨fun _ => closesLast.noJob (waits ▸ rfl),
      fun _ => ⟨(closesLast.finished finished).1, rfl⟩, fun err returned => ?_⟩
    cases returned
    exact ⟨finished, rfl⟩
  | start job slot =>
    have isOpen := closesLast.isOpen_of_job job
    exact closesLast.goesOn isOpen rfl isOpen
  | encode job =>
    have isOpen := closesLast.isOpen_of_job job
    exact closesLast.goesOn isOpen rfl isOpen
  | send job room =>
    have isOpen := closesLast.isOpen_of_job job
    exact closesLast.goesOn isOpen rfl isOpen
  | @receive res rest receives first =>
    have goesOn : s.phase ≠ .finished := by rw [receives]; nofun
    obtain ⟨client, jobs, phase⟩ : (s.receive res rest).client = s.client ∧
        (s.receive res rest).jobs = s.jobs ∧ (s.receive res rest).phase ≠ .finished := by
      unfold State.receive
      dsimp only
      split
      · exact ⟨rfl, rfl, goesOn⟩
      · split
        · exact ⟨rfl, rfl, nofun⟩
        · split
          · exact ⟨rfl, rfl, nofun⟩
          · exact ⟨rfl, rfl, goesOn⟩
    exact closesLast.collects goesOn client jobs phase
  | write due => exact closesLast.collects (notFinished_of_due due) rfl rfl nofun
  | writeFails due kept err => exact closesLast.collects (notFinished_of_due due) rfl rfl nofun
  | drained drains nothing => exact closesLast.collects (by rw [drains]; nofun) rfl rfl nofun
  | finish receives empty closed =>
    refine ⟨fun _ => closesLast.noJob (closed ▸ rfl), fun _ => ⟨empty, closed ▸ rfl⟩,
      fun err returned => ?_⟩
    rw [show s.client = .returned err from returned] at closed
    cases closed

end DbBackup.Pipeline.ChunkWriter
