import DbBackup.Lib.Reach
import DbBackup.Storage.MultipartCalls
import DbBackup.Storage.MultipartParts
import Mathlib.Algebra.BigOperators.Group.List.Basic

/-!
Owns the workers that upload the parts: the feeder that puts indices into a channel until the
context is done, the workers that take them, and the first error, which cancels the context.

A `Step` is one move of the feeder, of one worker or of the caller's context, in any interleaving.
Contract: `Inv.reached` and `pool_ends`. In every reached state each index that was fed is in the
channel, with a worker or uploaded, unless there is an error; and the pool always comes to rest.
-/

set_option linter.all false

namespace DbBackup.Storage.Multipart

open Lib Relation

structure PartRequest where
  number : Nat
  off : Int
  len : Int
deriving DecidableEq

/-- The request for the part of an index, whose body is the range of the file. -/
def FileSize.partRequest (file : FileSize) (i : Nat) : PartRequest where
  number := i + 1
  off := file.off i
  len := file.curLen i

inductive Worker where
  | idle
  /-- With an index, and whether the context was done when the worker took it. -/
  | busy (i : Nat) (late : Bool)
  | gone
deriving DecidableEq

structure Pool where
  next : Nat
  feeding : Bool
  jobs : List Nat
  workers : List Worker
  etags : List String
  firstErr : Option CallError
  cancelled : Bool
  /-- Every request for a part that was sent, with its reply. -/
  sent : List (PartRequest × Reply)

def Pool.start (file : FileSize) (cancelled : Bool) : Pool where
  next := 0
  feeding := true
  jobs := []
  workers := List.replicate file.numWorkers.toNat .idle
  etags := List.replicate file.numParts.toNat ""
  firstErr := none
  cancelled := cancelled
  sent := []

def Pool.setErr (pool : Pool) (err : CallError) : Pool :=
  if pool.firstErr = none then { pool with firstErr := some err, cancelled := true } else pool

/-- A worker returns after an error. -/
def Pool.fail (pool : Pool) (w : Nat) (err : CallError) : Pool :=
  { pool.setErr err with workers := pool.workers.set w .gone }

/-- A worker ends the upload of a part. -/
def Pool.uploaded (pool : Pool) (file : FileSize) (w i : Nat) (called : Called String) : Pool :=
  let sent := pool.sent ++ called.sent.map fun reply => (file.partRequest i, reply)
  match called.result with
  | .ok etag =>
    { pool with workers := pool.workers.set w .idle, etags := pool.etags.set i etag, sent := sent }
  | .error err => { pool.fail w err with sent := sent }

inductive Step (file : FileSize) : Pool → Pool → Prop where
  | cancel {pool : Pool} (alive : pool.cancelled = false) :
      Step file pool { pool with cancelled := true }
  /-- The channel takes an index when it has room, also on a context that is done. -/
  | feed {pool : Pool} (feeding : pool.feeding = true) (more : pool.next < file.numParts.toNat)
      (room : pool.jobs.length < file.numWorkers.toNat) :
      Step file pool { pool with jobs := pool.jobs ++ [pool.next], next := pool.next + 1 }
  | breakFeed {pool : Pool} (feeding : pool.feeding = true)
      (more : pool.next < file.numParts.toNat) (done : pool.cancelled = true) :
      Step file pool { pool with feeding := false }
  | close {pool : Pool} (feeding : pool.feeding = true) (all : pool.next = file.numParts.toNat) :
      Step file pool { pool with feeding := false }
  | take {pool : Pool} {w i : Nat} {rest : List Nat} (idle : pool.workers[w]? = some .idle)
      (job : pool.jobs = i :: rest) :
      Step file pool
        { pool with jobs := rest, workers := pool.workers.set w (.busy i pool.cancelled) }
  | exit {pool : Pool} {w : Nat} (idle : pool.workers[w]? = some .idle) (empty : pool.jobs = [])
      (closed : pool.feeding = false) :
      Step file pool { pool with workers := pool.workers.set w .gone }
  | readError {pool : Pool} {w i : Nat} {late : Bool}
      (busy : pool.workers[w]? = some (.busy i late)) :
      Step file pool (pool.fail w (.read (i + 1)))
  /-- All attempts for one part; the context is done in them only if the pool's is by now. -/
  | upload {pool : Pool} {w i : Nat} {late : Bool}
      (busy : pool.workers[w]? = some (.busy i late)) (ctx : Context) (replies : Nat → Reply)
      (already : late = true → ctx.done 0 = true)
      (byNow : ∀ moment, ctx.done moment = true → pool.cancelled = true) :
      Step file pool (pool.uploaded file w i (uploadMultipartPart ctx replies (i + 1)))

/-- `wg.Wait` returns: the channel is closed and every worker has returned. -/
def Pool.Rests (pool : Pool) : Prop :=
  pool.feeding = false ∧ ∀ worker ∈ pool.workers, worker = .gone

/-! ### Uploaded parts -/

/-- The server took a part under an etag. -/
def Uploaded (sent : List (PartRequest × Reply)) (request : PartRequest) (etag : String) : Prop :=
  ∃ answer, (request, .answered answer) ∈ sent ∧ s3UploadOK answer.code = true ∧
    GoString.trimSpace answer.etag = etag

theorem Uploaded.append {sent more : List (PartRequest × Reply)} {request : PartRequest}
    {etag : String} (uploaded : Uploaded sent request etag) :
    Uploaded (sent ++ more) request etag := by
  obtain ⟨answer, member, good, same⟩ := uploaded
  exact ⟨answer, List.mem_append_left _ member, good, same⟩

/-- A part call that succeeds has a non-empty etag of its part. -/
theorem uploaded_of_ok {file : FileSize} {ctx : Context} {replies : Nat → Reply} {i : Nat}
    {etag : String} (before : List (PartRequest × Reply))
    (ok : (uploadMultipartPart ctx replies (i + 1)).result = .ok etag) :
    etag ≠ "" ∧ Uploaded (before ++ (uploadMultipartPart ctx replies (i + 1)).sent.map
      fun reply => (file.partRequest i, reply)) (file.partRequest i) etag := by
  obtain ⟨attempt, answer, _, decides, last, accepted⟩ := ok_of_retry ok
  have isEtag : GoString.trimSpace answer.etag = etag ∧ etag ≠ "" := by
    unfold acceptPart at accepted
    dsimp only at accepted
    by_cases missing : GoString.trimSpace answer.etag = ""
    · rw [if_pos missing] at accepted
      cases accepted
    · rw [if_neg missing] at accepted
      cases accepted
      exact ⟨rfl, missing⟩
  refine ⟨isEtag.2, answer, List.mem_append_right _ ?_, decides.good, isEtag.1⟩
  exact List.mem_map.mpr ⟨_, List.mem_of_getLast? last, rfl⟩

/-! ### The invariant -/

/-- The index is waiting, with a worker, or uploaded under the etag in its slot. -/
def Pool.Covers (pool : Pool) (file : FileSize) (i : Nat) : Prop :=
  i ∈ pool.jobs ∨ (∃ late, Worker.busy i late ∈ pool.workers) ∨
    ∃ etag, pool.etags[i]? = some etag ∧ etag ≠ "" ∧ Uploaded pool.sent (file.partRequest i) etag

structure Inv (file : FileSize) (pool : Pool) : Prop where
  next_le : pool.next ≤ file.numParts.toNat
  etags_length : pool.etags.length = file.numParts.toNat
  workers_length : pool.workers.length = file.numWorkers.toNat
  jobs_lt : ∀ i ∈ pool.jobs, i < pool.next
  busy_lt : ∀ i late, Worker.busy i late ∈ pool.workers → i < pool.next
  late : ∀ i, Worker.busy i true ∈ pool.workers → pool.cancelled = true
  err_cancels : pool.firstErr ≠ none → pool.cancelled = true
  closed : pool.feeding = false → pool.next = file.numParts.toNat ∨ pool.cancelled = true
  gone : Worker.gone ∈ pool.workers → pool.firstErr ≠ none ∨ pool.feeding = false ∧ pool.jobs = []
  covered : pool.firstErr = none → ∀ i < pool.next, pool.Covers file i
  planned : ∀ request reply, (request, reply) ∈ pool.sent →
    ∃ i < file.numParts.toNat, request = file.partRequest i

theorem Inv.start (file : FileSize) (cancelled : Bool) : Inv file (Pool.start file cancelled) where
  next_le := Nat.zero_le _
  etags_length := List.length_replicate
  workers_length := List.length_replicate
  jobs_lt i member := by cases member
  busy_lt i late member := by cases List.eq_of_mem_replicate member
  late i member := by cases List.eq_of_mem_replicate member
  err_cancels failed := absurd rfl failed
  closed stopped := by cases stopped
  gone member := by cases List.eq_of_mem_replicate member
  covered _ i lt := absurd lt (Nat.not_lt_zero i)
  planned request reply member := by cases member

theorem mem_set_of_ne {α : Type} {items : List α} {w : Nat} {old new item : α}
    (here : items[w]? = some old) (member : item ∈ items) (ne : item ≠ old) :
    item ∈ items.set w new := by
  obtain ⟨index, found⟩ := List.mem_iff_getElem?.mp member
  refine List.mem_iff_getElem?.mpr ⟨index, ?_⟩
  rw [List.getElem?_set_ne, found]
  rintro rfl
  rw [found] at here
  exact ne (Option.some.inj here)

theorem mem_set_here {α : Type} {items : List α} {w : Nat} {old : α} (new : α)
    (here : items[w]? = some old) : new ∈ items.set w new := by
  obtain ⟨inside, _⟩ := List.getElem?_eq_some_iff.mp here
  exact List.mem_set inside new

variable {file : FileSize} {pool : Pool}

theorem Inv.feed (inv : Inv file pool)
    (feeding : pool.feeding = true) (more : pool.next < file.numParts.toNat) :
    Inv file { pool with jobs := pool.jobs ++ [pool.next], next := pool.next + 1 } where
  next_le := more
  etags_length := inv.etags_length
  workers_length := inv.workers_length
  jobs_lt i member := by
    rcases List.mem_append.mp member with old | new
    · exact Nat.lt_succ_of_lt (inv.jobs_lt i old)
    · rw [List.mem_singleton.mp new]
      exact Nat.lt_succ_self _
  busy_lt i late member := Nat.lt_succ_of_lt (inv.busy_lt i late member)
  late := inv.late
  err_cancels := inv.err_cancels
  closed stopped := by
    rw [feeding] at stopped
    cases stopped
  gone member := by
    rcases inv.gone member with failed | ⟨stopped, _⟩
    · exact .inl failed
    · rw [feeding] at stopped
      cases stopped
  covered noErr i lt := by
    by_cases new : i = pool.next
    · exact .inl (List.mem_append_right _ (List.mem_singleton.mpr new))
    · have fed : i < pool.next := by
        have : i < pool.next + 1 := lt
        omega
      rcases inv.covered noErr i fed with waiting | busy | done
      · exact .inl (List.mem_append_left _ waiting)
      · exact .inr (.inl busy)
      · exact .inr (.inr done)
  planned := inv.planned

/-- The feeder ends: all is fed, or the context is done. -/
theorem Inv.endFeed (inv : Inv file pool) (feeding : pool.feeding = true)
    (why : pool.next = file.numParts.toNat ∨ pool.cancelled = true) :
    Inv file { pool with feeding := false } where
  next_le := inv.next_le
  etags_length := inv.etags_length
  workers_length := inv.workers_length
  jobs_lt := inv.jobs_lt
  busy_lt := inv.busy_lt
  late := inv.late
  err_cancels := inv.err_cancels
  closed _ := why
  gone member := by
    rcases inv.gone member with failed | ⟨stopped, _⟩
    · exact .inl failed
    · rw [feeding] at stopped
      cases stopped
  covered := inv.covered
  planned := inv.planned

theorem Inv.cancel (inv : Inv file pool) : Inv file { pool with cancelled := true } :=
  { inv with
    late := fun _ _ => rfl
    err_cancels := fun _ => rfl
    closed := fun _ => .inr rfl }

theorem Inv.take {file : FileSize} {pool : Pool} (inv : Inv file pool) {w i : Nat}
    {rest : List Nat} (idle : pool.workers[w]? = some .idle) (job : pool.jobs = i :: rest) :
    Inv file { pool with jobs := rest, workers := pool.workers.set w (.busy i pool.cancelled) }
    where
  next_le := inv.next_le
  etags_length := inv.etags_length
  workers_length := by rw [List.length_set, inv.workers_length]
  jobs_lt other member := inv.jobs_lt other (by rw [job]; exact List.mem_cons_of_mem _ member)
  busy_lt other late member := by
    rcases List.mem_or_eq_of_mem_set member with old | new
    · exact inv.busy_lt other late old
    · cases new
      exact inv.jobs_lt i (by rw [job]; exact List.mem_cons_self)
  late other member := by
    rcases List.mem_or_eq_of_mem_set member with old | new
    · exact inv.late other old
    · injection new with _ same
      exact same.symm
  err_cancels := inv.err_cancels
  closed := inv.closed
  gone member := by
    rcases List.mem_or_eq_of_mem_set member with old | new
    · rcases inv.gone old with failed | ⟨_, empty⟩
      · exact .inl failed
      · rw [job] at empty
        cases empty
    · cases new
  covered noErr other lt := by
    rcases inv.covered noErr other lt with waiting | ⟨late, busy⟩ | done
    · rw [job] at waiting
      rcases List.mem_cons.mp waiting with rfl | later
      · exact .inr (.inl ⟨_, mem_set_here _ idle⟩)
      · exact .inl later
    · exact .inr (.inl ⟨late, mem_set_of_ne idle busy (by rintro ⟨⟩)⟩)
    · exact .inr (.inr done)
  planned := inv.planned

theorem Inv.exit {file : FileSize} {pool : Pool} (inv : Inv file pool) {w : Nat}
    (idle : pool.workers[w]? = some .idle) (empty : pool.jobs = [])
    (closed : pool.feeding = false) :
    Inv file { pool with workers := pool.workers.set w .gone } where
  next_le := inv.next_le
  etags_length := inv.etags_length
  workers_length := by rw [List.length_set, inv.workers_length]
  jobs_lt := inv.jobs_lt
  busy_lt other late member := by
    rcases List.mem_or_eq_of_mem_set member with old | new
    · exact inv.busy_lt other late old
    · cases new
  late other member := by
    rcases List.mem_or_eq_of_mem_set member with old | new
    · exact inv.late other old
    · cases new
  err_cancels := inv.err_cancels
  closed := inv.closed
  gone _ := .inr ⟨closed, empty⟩
  covered noErr other lt := by
    rcases inv.covered noErr other lt with waiting | ⟨late, busy⟩ | done
    · exact .inl waiting
    · exact .inr (.inl ⟨late, mem_set_of_ne idle busy (by rintro ⟨⟩)⟩)
    · exact .inr (.inr done)
  planned := inv.planned

theorem Inv.setErr (inv : Inv file pool) (err : CallError) :
    Inv file (pool.setErr err) ∧ (pool.setErr err).firstErr ≠ none ∧
      (pool.setErr err).workers = pool.workers := by
  unfold Pool.setErr
  by_cases first : pool.firstErr = none
  · rw [if_pos first]
    refine ⟨{ inv.cancel with err_cancels := fun _ => rfl, gone := ?_, covered := ?_ },
      Option.some_ne_none _, rfl⟩
    · exact fun _ => .inl (Option.some_ne_none _)
    · intro noErr
      cases noErr
  · rw [if_neg first]
    exact ⟨inv, first, rfl⟩

theorem Inv.fail (inv : Inv file pool) (w : Nat) (err : CallError) :
    Inv file (pool.fail w err) ∧ (pool.fail w err).firstErr ≠ none := by
  obtain ⟨after, failed, same⟩ := inv.setErr err
  refine ⟨?_, failed⟩
  unfold Pool.fail
  rw [← same]
  exact { after with
    workers_length := by rw [List.length_set, after.workers_length]
    busy_lt := fun other late member => by
      rcases List.mem_or_eq_of_mem_set member with old | new
      · exact after.busy_lt other late old
      · cases new
    late := fun other member => by
      rcases List.mem_or_eq_of_mem_set member with old | new
      · exact after.late other old
      · cases new
    gone := fun _ => .inl failed
    covered := fun noErr => absurd noErr failed }

theorem planned_append {sent : List (PartRequest × Reply)} {i : Nat}
    (planned : ∀ request reply, (request, reply) ∈ sent →
      ∃ i < file.numParts.toNat, request = file.partRequest i)
    (inside : i < file.numParts.toNat) (replies : List Reply) :
    ∀ request reply, (request, reply) ∈ sent ++ replies.map (fun reply =>
      (file.partRequest i, reply)) → ∃ i < file.numParts.toNat, request = file.partRequest i := by
  intro request reply member
  rcases List.mem_append.mp member with old | new
  · exact planned request reply old
  · obtain ⟨own, _, same⟩ := List.mem_map.mp new
    cases same
    exact ⟨i, inside, rfl⟩

theorem Inv.uploaded (inv : Inv file pool) {w i : Nat}
    {late : Bool} (busy : pool.workers[w]? = some (.busy i late)) (ctx : Context)
    (replies : Nat → Reply) :
    Inv file (pool.uploaded file w i (uploadMultipartPart ctx replies (i + 1))) := by
  have fed : i < pool.next := inv.busy_lt i late (List.mem_of_getElem? busy)
  have inside : i < file.numParts.toNat := Nat.lt_of_lt_of_le fed inv.next_le
  have planned := planned_append inv.planned inside (uploadMultipartPart ctx replies (i + 1)).sent
  unfold Pool.uploaded
  cases called : (uploadMultipartPart ctx replies (i + 1)).result with
  | error err =>
    obtain ⟨after, failed⟩ := inv.fail w err
    exact { after with planned := planned, covered := fun noErr => absurd noErr failed }
  | ok etag =>
    obtain ⟨nonEmpty, taken⟩ := @uploaded_of_ok file ctx replies i etag pool.sent called
    exact {
      next_le := inv.next_le
      etags_length := by rw [List.length_set, inv.etags_length]
      workers_length := by rw [List.length_set, inv.workers_length]
      jobs_lt := inv.jobs_lt
      busy_lt := fun other late member => by
        rcases List.mem_or_eq_of_mem_set member with old | new
        · exact inv.busy_lt other late old
        · cases new
      late := fun other member => by
        rcases List.mem_or_eq_of_mem_set member with old | new
        · exact inv.late other old
        · cases new
      err_cancels := inv.err_cancels
      closed := inv.closed
      gone := fun member => by
        rcases List.mem_or_eq_of_mem_set member with old | new
        · exact inv.gone old
        · cases new
      covered := fun noErr other lt => by
        by_cases own : other = i
        · rw [own]
          refine .inr (.inr ⟨etag, ?_, nonEmpty, taken⟩)
          exact List.getElem?_set_self (by rw [inv.etags_length]; exact inside)
        · rcases inv.covered noErr other lt with waiting | ⟨late, with_⟩ | ⟨slot, held, rest⟩
          · exact .inl waiting
          · refine .inr (.inl ⟨late, mem_set_of_ne busy with_ ?_⟩)
            intro same
            injection same with index
            exact own index
          · refine .inr (.inr ⟨slot, ?_, rest.1, rest.2.append⟩)
            rw [List.getElem?_set_ne (Ne.symm own), held]
      planned := planned }

theorem Inv.step {pool after : Pool} (step : Step file pool after)
    (inv : Inv file pool) : Inv file after := by
  cases step with
  | cancel alive => exact inv.cancel
  | feed feeding more room => exact inv.feed feeding more
  | breakFeed feeding more done => exact inv.endFeed feeding (.inr done)
  | close feeding all => exact inv.endFeed feeding (.inl all)
  | take idle job => exact inv.take idle job
  | exit idle empty closed => exact inv.exit idle empty closed
  | readError busy => exact (inv.fail _ _).1
  | upload busy ctx replies already byNow => exact inv.uploaded busy ctx replies

theorem Inv.reached {cancelled : Bool}
    (run : ReflTransGen (Step file) (Pool.start file cancelled) pool) : Inv file pool :=
  Reach.invariant_of_reaches (fun _ _ step inv => inv.step step) run (Inv.start file cancelled)

/-! ### The pool comes to rest -/

def Worker.weight : Worker → Nat
  | .idle => 1
  | .busy _ _ => 3
  | .gone => 0

def Pool.weight (file : FileSize) (pool : Pool) : Nat :=
  4 * (file.numParts.toNat - pool.next) + 3 * pool.jobs.length +
    (pool.workers.map Worker.weight).sum + (if pool.feeding then 1 else 0) +
      (if pool.cancelled then 0 else 1)

theorem sum_weight_set {workers : List Worker} {w : Nat} {old : Worker} (new : Worker)
    (here : workers[w]? = some old) :
    ((workers.set w new).map Worker.weight).sum + old.weight =
      (workers.map Worker.weight).sum + new.weight := by
  induction workers generalizing w with
  | nil => cases here
  | cons first rest ih =>
    cases w with
    | zero =>
      cases here
      simp only [List.set_cons_zero, List.map_cons, List.sum_cons]
      omega
    | succ w =>
      have later := ih (w := w) here
      simp only [List.set_cons_succ, List.map_cons, List.sum_cons]
      omega

theorem weight_fail {w i : Nat} {late : Bool}
    (busy : pool.workers[w]? = some (.busy i late)) (err : CallError)
    (sent : List (PartRequest × Reply)) :
    Pool.weight file { pool.fail w err with sent := sent } < pool.weight file := by
  have workers := sum_weight_set .gone busy
  unfold Pool.weight Pool.fail Pool.setErr
  simp only [Worker.weight] at workers
  by_cases first : pool.firstErr = none
  · simp only [if_pos first, if_true]
    omega
  · simp only [if_neg first]
    omega

theorem weight_step {pool after : Pool} (step : Step file pool after) :
    after.weight file < pool.weight file := by
  cases step with
  | cancel alive =>
    simp only [Pool.weight, alive, if_true, Bool.false_eq_true, if_false]
    omega
  | feed feeding more room =>
    simp only [Pool.weight, List.length_append, List.length_singleton]
    omega
  | breakFeed feeding more done =>
    simp only [Pool.weight, feeding, if_true, Bool.false_eq_true, if_false]
    omega
  | close feeding all =>
    simp only [Pool.weight, feeding, if_true, Bool.false_eq_true, if_false]
    omega
  | @take w i rest idle job =>
    have workers := sum_weight_set (.busy i pool.cancelled) idle
    simp only [Worker.weight] at workers
    simp only [Pool.weight, job, List.length_cons]
    omega
  | exit idle empty closed =>
    have workers := sum_weight_set .gone idle
    simp only [Worker.weight] at workers
    simp only [Pool.weight]
    omega
  | readError busy => exact weight_fail busy _ _
  | @upload w i late busy ctx replies already byNow =>
    unfold Pool.uploaded
    cases (uploadMultipartPart ctx replies (i + 1)).result with
    | error err => exact weight_fail busy err _
    | ok etag =>
      have workers := sum_weight_set .idle busy
      simp only [Worker.weight] at workers
      simp only [Pool.weight]
      omega

/-- A context that is and stays as it is now. -/
def Context.constant (done : Bool) : Context := ⟨fun _ => done, fun _ now => now⟩

/-- Where the pool does not rest, someone can move. -/
theorem Inv.exists_step (inv : Inv file pool)
    (moving : ¬ pool.Rests) : ∃ after, Step file pool after := by
  by_cases busy : ∃ i late, Worker.busy i late ∈ pool.workers
  · obtain ⟨i, late, member⟩ := busy
    obtain ⟨w, here⟩ := List.mem_iff_getElem?.mp member
    refine ⟨_, .upload here (.constant pool.cancelled) (fun _ => .failure) ?_ fun _ done => done⟩
    rintro rfl
    exact inv.late i member
  by_cases idle : Worker.idle ∈ pool.workers
  · obtain ⟨w, here⟩ := List.mem_iff_getElem?.mp idle
    cases jobs : pool.jobs with
    | cons i rest => exact ⟨_, .take here jobs⟩
    | nil =>
      cases feeding : pool.feeding with
      | false => exact ⟨_, .exit here jobs feeding⟩
      | true =>
        by_cases all : pool.next = file.numParts.toNat
        · exact ⟨_, .close feeding all⟩
        · have more := Nat.lt_of_le_of_ne inv.next_le all
          have room := file.numWorkers_pos
          exact ⟨_, .feed feeding more (by rw [jobs, List.length_nil]; omega)⟩
  -- All have returned, and only an error makes a worker return before the channel is closed.
  have allGone : ∀ worker ∈ pool.workers, worker = .gone := by
    intro worker member
    cases worker with
    | idle => exact absurd member idle
    | busy i late => exact absurd ⟨i, late, member⟩ busy
    | gone => rfl
  have feeding : pool.feeding = true := by
    by_contra stopped
    exact moving ⟨by simpa using stopped, allGone⟩
  have isGone : Worker.gone ∈ pool.workers := by
    have some := file.numWorkers_pos
    have exists_ : 0 < pool.workers.length := by
      rw [inv.workers_length]
      omega
    obtain ⟨worker, member⟩ := List.exists_mem_of_length_pos exists_
    rw [allGone worker member] at member
    exact member
  by_cases all : pool.next = file.numParts.toNat
  · exact ⟨_, .close feeding all⟩
  · have more := Nat.lt_of_le_of_ne inv.next_le all
    rcases inv.gone isGone with failed | ⟨stopped, _⟩
    · exact ⟨_, .breakFeed feeding more (inv.err_cancels failed)⟩
    · rw [feeding] at stopped
      cases stopped

/-- Every run of the pool ends, and it ends in rest. -/
theorem pool_ends (file : FileSize) (cancelled : Bool) :
    Reach.Ends (Step file) (Pool.start file cancelled) ∧
      ∀ pool, ReflTransGen (Step file) (Pool.start file cancelled) pool →
        (∀ after, ¬ Step file pool after) → pool.Rests := by
  refine ⟨Reach.ends_of_measure (fun _ _ step inv => Inv.step step inv) (Pool.weight file)
    (fun _ _ step _ => weight_step step) (Inv.start file cancelled), ?_⟩
  intro pool run stuck
  by_contra moving
  obtain ⟨after, step⟩ := (Inv.reached run).exists_step moving
  exact stuck after step

end DbBackup.Storage.Multipart
