import DbBackup.Storage.MultipartPool

/-!
Owns a whole multipart upload: creating it, the pool, completing it, and the deferred abort.

A `Course` is everything outside of the uploader: the contexts, the replies and one interleaving of
the pool up to its rest. Contract: `uploadMultipart_assembles`, that a complete request is sent only
for all parts of the file; and `storedOnSuccess_iff`, that the answer to it is taken by its status
alone, so that the upload succeeds without an object exactly when that answer has no result.
-/

set_option linter.all false

namespace DbBackup.Storage.Multipart

open Lib Relation

structure Course (file : FileSize) where
  /-- Spooling the reader, and the context after it. -/
  spoolErr : Option CallError
  createCtx : Context
  createReplies : Nat → Reply
  opens : Bool
  cancelled : Bool
  pool : Pool
  run : ReflTransGen (Step file) (Pool.start file cancelled) pool
  rests : pool.Rests
  completeCtx : Context
  completeReplies : Nat → Reply
  later : pool.cancelled = true → completeCtx.done 0 = true

structure Outcome where
  created : Bool := false
  parts : List (PartRequest × Reply) := []
  /-- The complete requests that were sent, with their replies. -/
  completes : List (List (Nat × String) × Reply) := []
  /-- An abort request was issued. -/
  aborted : Bool := false
  n : Int := 0
  error : Option CallError

def completePayload (etags : List String) : List (Nat × String) :=
  etags.zipIdx.map fun slot => (slot.2 + 1, slot.1)

/-- The deferred function aborts what was created and not completed. -/
def finish {file : FileSize} (course : Course file) : Outcome :=
  match course.pool.firstErr with
  | some err => { created := true, parts := course.pool.sent, aborted := true, error := some err }
  | none =>
    let called := completeMultipartUpload course.completeCtx course.completeReplies
    let completes := called.sent.map fun reply => (completePayload course.pool.etags, reply)
    match called.result with
    | .error err =>
      { created := true, parts := course.pool.sent, completes := completes, aborted := true,
        error := some err }
    | .ok _ =>
      { created := true, parts := course.pool.sent, completes := completes, n := file.size,
        error := none }

def uploadMultipart {file : FileSize} (course : Course file) : Outcome :=
  match (createMultipartUpload course.createCtx course.createReplies).result with
  | .error err => { error := some err }
  | .ok _ =>
    if course.opens then finish course
    else { created := true, aborted := true, error := some .reopen }

/-- `s3Storage.Upload` of a file that is as large as the threshold. -/
def upload {file : FileSize} (course : Course file) : Outcome :=
  match course.spoolErr with
  | some err => { error := some err }
  | none => uploadMultipart course

/-! ### The parts of a complete request -/

/-- The complete request is sent for all parts only, with the etag of each; without them all the
upload fails and is aborted. -/
structure Assembles (file : FileSize) (outcome : Outcome) : Prop where
  planned : ∀ request reply, (request, reply) ∈ outcome.parts →
    ∃ i < file.numParts.toNat, request = file.partRequest i
  complete : ∀ payload reply, (payload, reply) ∈ outcome.completes →
    payload.length = file.numParts.toNat ∧ ∀ i < file.numParts.toNat,
      ∃ etag, payload[i]? = some (i + 1, etag) ∧ etag ≠ "" ∧
        Uploaded outcome.parts (file.partRequest i) etag
  missing : (∃ i < file.numParts.toNat, ∀ etag, ¬ Uploaded outcome.parts (file.partRequest i) etag) →
    outcome.error ≠ none ∧ (outcome.created = true → outcome.aborted = true)

variable {file : FileSize}

theorem Assembles.of_no_complete {outcome : Outcome}
    (planned : ∀ request reply, (request, reply) ∈ outcome.parts →
      ∃ i < file.numParts.toNat, request = file.partRequest i)
    (none : outcome.completes = []) (failed : outcome.error ≠ Option.none)
    (aborted : outcome.created = true → outcome.aborted = true) : Assembles file outcome where
  planned := planned
  complete payload reply member := by
    rw [none] at member
    cases member
  missing _ := ⟨failed, aborted⟩

/-- At rest, with no error and the context alive, every part is uploaded. -/
theorem Inv.all_uploaded {pool : Pool} (inv : Inv file pool)
    (rests : pool.Rests) (noErr : pool.firstErr = none) (alive : pool.cancelled = false)
    {i : Nat} (inside : i < file.numParts.toNat) :
    ∃ etag, pool.etags[i]? = some etag ∧ etag ≠ "" ∧
      Uploaded pool.sent (file.partRequest i) etag := by
  have all : pool.next = file.numParts.toNat := by
    rcases inv.closed rests.1 with all | done
    · exact all
    · rw [alive] at done
      cases done
  have some := file.numWorkers_pos
  obtain ⟨worker, member⟩ := List.exists_mem_of_length_pos (l := pool.workers)
    (by rw [inv.workers_length]; omega)
  have isGone := rests.2 worker member
  rw [isGone] at member
  rcases inv.covered noErr i (by omega) with waiting | ⟨late, busy⟩ | done
  · rcases inv.gone member with failed | ⟨_, empty⟩
    · exact absurd noErr failed
    · rw [empty] at waiting
      cases waiting
  · cases rests.2 _ busy
  · exact done

theorem length_completePayload (etags : List String) :
    (completePayload etags).length = etags.length := by
  rw [completePayload, List.length_map, List.length_zipIdx]

theorem getElem?_completePayload {etags : List String} {i : Nat} {etag : String}
    (slot : etags[i]? = some etag) : (completePayload etags)[i]? = some (i + 1, etag) := by
  rw [completePayload, List.getElem?_map, List.getElem?_zipIdx, slot]
  simp

theorem finish_assembles (course : Course file) : Assembles file (finish course) := by
  have inv := Inv.reached course.run
  unfold finish
  cases noErr : course.pool.firstErr with
  | some err => exact .of_no_complete inv.planned rfl (Option.some_ne_none _) fun _ => rfl
  | none =>
    dsimp only
    cases alive : course.pool.cancelled with
    | true =>
      have unsent : (completeMultipartUpload course.completeCtx course.completeReplies).sent = [] ∧
          ∀ value, (completeMultipartUpload course.completeCtx course.completeReplies).result ≠
            .ok value := retry_of_done (course.later alive)
      cases called : (completeMultipartUpload course.completeCtx course.completeReplies).result with
      | ok value => exact absurd called (unsent.2 value)
      | error err =>
        refine .of_no_complete inv.planned ?_ (Option.some_ne_none _) fun _ => rfl
        rw [unsent.1, List.map_nil]
    | false =>
      have all {i : Nat} (inside : i < file.numParts.toNat) :=
        inv.all_uploaded course.rests noErr alive inside
      have complete : ∀ payload reply,
          (payload, reply) ∈ (completeMultipartUpload course.completeCtx
            course.completeReplies).sent.map
              (fun reply => (completePayload course.pool.etags, reply)) →
          payload.length = file.numParts.toNat ∧ ∀ i < file.numParts.toNat,
            ∃ etag, payload[i]? = some (i + 1, etag) ∧ etag ≠ "" ∧
              Uploaded course.pool.sent (file.partRequest i) etag := by
        intro payload reply member
        obtain ⟨own, _, same⟩ := List.mem_map.mp member
        cases same
        refine ⟨(length_completePayload _).trans inv.etags_length, ?_⟩
        intro i inside
        obtain ⟨etag, slot, rest⟩ := all inside
        exact ⟨etag, getElem?_completePayload slot, rest⟩
      have missing {P : Prop} (notAll : ∃ i < file.numParts.toNat,
          ∀ etag, ¬ Uploaded course.pool.sent (file.partRequest i) etag) : P := by
        obtain ⟨i, inside, none⟩ := notAll
        obtain ⟨etag, _, _, uploaded⟩ := all inside
        exact absurd uploaded (none etag)
      cases (completeMultipartUpload course.completeCtx course.completeReplies).result with
      | error err => exact ⟨inv.planned, complete, missing⟩
      | ok value => exact ⟨inv.planned, complete, missing⟩

theorem uploadMultipart_assembles (file : FileSize) :
    0 < file.numParts ∧ file.numParts ≤ 10000 ∧ file.Partition ∧
      (∀ cancelled, Reach.Ends (Step file) (Pool.start file cancelled) ∧
        ∀ pool, ReflTransGen (Step file) (Pool.start file cancelled) pool →
          (∀ after, ¬ Step file pool after) → pool.Rests) ∧
      ∀ course : Course file, Assembles file (uploadMultipart course) := by
  refine ⟨file.numParts_pos, file.numParts_le, file.parts_partition, pool_ends file, ?_⟩
  intro course
  unfold uploadMultipart
  cases (createMultipartUpload course.createCtx course.createReplies).result with
  | error err =>
    refine .of_no_complete ?_ rfl (Option.some_ne_none _) ?_
    · intro request reply member
      cases member
    · intro created
      cases created
  | ok uploadID =>
    dsimp only
    by_cases opens : course.opens = true
    · rw [if_pos opens]
      exact finish_assembles course
    · rw [if_neg opens]
      refine .of_no_complete ?_ rfl (Option.some_ne_none _) fun _ => rfl
      intro request reply member
      cases member

/-! ### The answer to the complete request -/

/-- A success means that the last complete request was answered with a result. -/
def StoredOnSuccess (outcome : Outcome) : Prop :=
  outcome.error = none → ∃ payload answer,
    outcome.completes.getLast? = some (payload, .answered answer) ∧ answer.body = .result

/-- The upload comes to its complete request, and the answer that ends the attempts has a status of
success and no result. -/
structure Deceived {file : FileSize} (course : Course file) : Prop where
  spooled : course.spoolErr = none
  created : ∃ uploadID,
    (createMultipartUpload course.createCtx course.createReplies).result = .ok uploadID
  opens : course.opens = true
  noErr : course.pool.firstErr = none
  answered : ∃ attempt answer, attempt < 3 ∧
    Decides course.completeCtx course.completeReplies 0 attempt answer ∧ answer.body ≠ .result

theorem getLast?_map_completes {sent : List Reply} {reply : Reply} (payload : List (Nat × String))
    (last : sent.getLast? = some reply) :
    (sent.map fun reply => (payload, reply)).getLast? = some (payload, reply) := by
  rw [List.getLast?_map, last, Option.map_some]

theorem not_storedOnSuccess_of_deceived {course : Course file}
    (deceived : Deceived course) : ¬ StoredOnSuccess (upload course) := by
  obtain ⟨uploadID, created⟩ := deceived.created
  obtain ⟨attempt, answer, inTime, decides, noResult⟩ := deceived.answered
  have called : (completeMultipartUpload course.completeCtx course.completeReplies).result =
        .ok () ∧
      (completeMultipartUpload course.completeCtx course.completeReplies).sent.getLast? =
        some (.answered answer) := retry_of_decides decides (Nat.zero_le _) inTime
  unfold StoredOnSuccess upload uploadMultipart finish
  rw [deceived.spooled, created]
  dsimp only
  rw [if_pos deceived.opens, deceived.noErr]
  dsimp only
  rw [called.1]
  dsimp only
  intro stored
  obtain ⟨payload, own, last, result⟩ := stored rfl
  rw [getLast?_map_completes _ called.2] at last
  cases last
  exact noResult result

theorem storedOnSuccess_iff {file : FileSize} (course : Course file) :
    StoredOnSuccess (upload course) ↔ ¬ Deceived course := by
  refine ⟨fun stored deceived => not_storedOnSuccess_of_deceived deceived stored, ?_⟩
  intro honest noError
  unfold upload uploadMultipart finish at noError ⊢
  cases spooled : course.spoolErr with
  | some err =>
    rw [spooled] at noError
    cases noError
  | none =>
    rw [spooled] at noError
    dsimp only at noError ⊢
    cases created : (createMultipartUpload course.createCtx course.createReplies).result with
    | error err =>
      rw [created] at noError
      cases noError
    | ok uploadID =>
      rw [created] at noError
      dsimp only at noError ⊢
      by_cases opens : course.opens = true
      · rw [if_pos opens] at noError ⊢
        cases noErr : course.pool.firstErr with
        | some err =>
          rw [noErr] at noError
          cases noError
        | none =>
          rw [noErr] at noError
          dsimp only at noError ⊢
          cases called :
              (completeMultipartUpload course.completeCtx course.completeReplies).result with
          | error err =>
            rw [called] at noError
            cases noError
          | ok value =>
            obtain ⟨attempt, answer, inTime, decides, last, _⟩ := ok_of_retry called
            refine ⟨completePayload course.pool.etags, answer, ?_, ?_⟩
            · exact getLast?_map_completes _ last
            · by_contra noResult
              exact honest ⟨spooled, ⟨uploadID, created⟩, opens, noErr, attempt, answer,
                by omega, decides, noResult⟩
      · rw [if_neg opens] at noError
        cases noError

/-! ### A success without an object -/

/-- A file of one part. -/
def onePart : FileSize := ⟨8388608, by decide, by decide⟩

def partTaken (_ : Nat) : Reply := .answered ⟨200, "\"9bb58f26\"", .other⟩

def fedPool : Pool := { Pool.start onePart false with jobs := [0], next := 1 }

def closedPool : Pool := { fedPool with feeding := false }

def takenPool : Pool := { closedPool with jobs := [], workers := [.busy 0 false] }

def sentPool : Pool :=
  takenPool.uploaded onePart 0 0 (uploadMultipartPart (.constant false) partTaken 1)

def onePartPool : Pool := { sentPool with workers := [.gone] }

theorem numParts_onePart : onePart.numParts.toNat = 1 := by decide +kernel

theorem numWorkers_onePart : onePart.numWorkers.toNat = 1 := by decide +kernel

theorem workers_closedPool : closedPool.workers = [.idle] := by
  change List.replicate onePart.numWorkers.toNat Worker.idle = _
  rw [numWorkers_onePart]
  rfl

theorem uploads_partTaken :
    (uploadMultipartPart (.constant false) partTaken 1).result = .ok "\"9bb58f26\"" := by
  decide +kernel

theorem sentPool_spec : sentPool.workers = [.idle] ∧ sentPool.jobs = [] ∧
    sentPool.feeding = false ∧ sentPool.firstErr = none ∧ sentPool.cancelled = false := by
  unfold sentPool Pool.uploaded
  rw [uploads_partTaken]
  exact ⟨rfl, rfl, rfl, rfl, rfl⟩

theorem reaches_onePartPool :
    ReflTransGen (Step onePart) (Pool.start onePart false) onePartPool := by
  have feed : Step onePart (Pool.start onePart false) fedPool :=
    .feed rfl (by rw [numParts_onePart]; decide) (by rw [numWorkers_onePart]; decide)
  have close : Step onePart fedPool closedPool := .close rfl (by rw [numParts_onePart]; rfl)
  have take : Step onePart closedPool takenPool := by
    have taken := @Step.take onePart closedPool 0 0 [] (by rw [workers_closedPool]; rfl) rfl
    rw [workers_closedPool] at taken
    exact taken
  have send : Step onePart takenPool sentPool :=
    @Step.upload onePart takenPool 0 0 false rfl (.constant false) partTaken (fun late => late)
      fun _ done => done
  have exit : Step onePart sentPool onePartPool := by
    obtain ⟨idle, empty, closed, _⟩ := sentPool_spec
    have exited := @Step.exit onePart sentPool 0 (by rw [idle]; rfl) empty closed
    rw [idle] at exited
    exact exited
  exact .head feed (.head close (.head take (.head send (.single exit))))

/-- The complete request is answered with status 200 and an error document. -/
def refusedCourse : Course onePart where
  spoolErr := none
  createCtx := .constant false
  createReplies _ := .answered ⟨200, "", .initiated "VXBsb2Fk"⟩
  opens := true
  cancelled := false
  pool := onePartPool
  run := reaches_onePartPool
  rests := by
    refine ⟨sentPool_spec.2.2.1, ?_⟩
    intro worker member
    exact List.mem_singleton.mp member
  completeCtx := .constant false
  completeReplies _ := .answered ⟨200, "", .error⟩
  later done := by
    have alive := sentPool_spec.2.2.2.2
    exact absurd (alive.symm.trans done) (by decide)

theorem refusedCourse_not_stored : ¬ StoredOnSuccess (upload refusedCourse) := by
  refine not_storedOnSuccess_of_deceived ⟨rfl, ⟨"VXBsb2Fk", ?_⟩, rfl, ?_, ?_⟩
  · decide +kernel
  · exact sentPool_spec.2.2.2.1
  · refine ⟨0, ⟨200, "", .error⟩, by decide, ⟨rfl, by decide, ?_, rfl⟩, by decide⟩
    intro earlier _ before
    exact absurd before (Nat.not_lt_zero _)

end DbBackup.Storage.Multipart
