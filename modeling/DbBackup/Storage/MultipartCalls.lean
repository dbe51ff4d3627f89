import DbBackup.Lib.GoString

/-!
Owns the calls of a multipart upload: the loop of three attempts that creating, uploading a part and
completing have in common, and what each makes of an answer.

A call is a function of its context and of the replies to its attempts, and says which requests were
sent. Contract: `ok_of_retry`, `retry_of_decides` and `retry_of_done`.

Does not own the texts of the errors, which carry the destination, the status and the body.
-/

namespace DbBackup.Storage.Multipart

open Lib.GoString (trimSpace)

/-- A context at the moments it is looked at; once it is done it stays so. -/
structure Context where
  done : Nat → Bool
  mono : ∀ {moment later : Nat}, moment ≤ later → done moment = true → done later = true

inductive Body where
  | initiated (uploadID : String)
  | result
  | error
  | other
deriving DecidableEq

structure Answer where
  code : Nat
  etag : String
  body : Body
deriving DecidableEq

/-- To a request that is sent: no answer, or one. -/
inductive Reply where
  | failure
  | answered (answer : Answer)
deriving DecidableEq

inductive CallError where
  | context
  | transport
  | status (code : Nat)
  | decode
  | emptyUploadID
  | missingETag (number : Nat)
  | read (number : Nat)
  | reopen
  | spool
  | retries
deriving DecidableEq

def s3UploadOK (code : Nat) : Bool := code == 200 || code == 201 || code == 204

def isRetryableStatus (code : Nat) : Bool := code == 429 || decide (500 ≤ code)

/-! ### The attempts -/

structure Called (α : Type) where
  /-- The replies to the requests that were sent. -/
  sent : List Reply
  result : Except CallError α

def Called.after {α : Type} (reply : Reply) (called : Called α) : Called α :=
  { called with sent := reply :: called.sent }

/-- The loop `for attempt := 0; attempt < 3; attempt++`. The context is looked at before the wait,
when the request is sent and after a failure; a request on a context that is done is not sent. -/
def retry {α : Type} (ctx : Context) (replies : Nat → Reply) (cancelled : CallError)
    (accept : Answer → Except CallError α) : Nat → Nat → Option CallError → Called α
  | 0, _, lastErr => ⟨[], .error (lastErr.getD .retries)⟩
  | left + 1, attempt, _ =>
    if 0 < attempt ∧ ctx.done (3 * attempt) then ⟨[], .error .context⟩
    else if ctx.done (3 * attempt + 1) then ⟨[], .error .context⟩
    else match replies attempt with
      | .failure =>
        if ctx.done (3 * attempt + 2) then ⟨[.failure], .error cancelled⟩
        else (retry ctx replies cancelled accept left (attempt + 1) (some .transport)).after .failure
      | .answered answer =>
        if s3UploadOK answer.code then ⟨[.answered answer], accept answer⟩
        else if isRetryableStatus answer.code then
          (retry ctx replies cancelled accept left (attempt + 1)
            (some (.status answer.code))).after (.answered answer)
        else ⟨[.answered answer], .error (.status answer.code)⟩

def acceptCreate (answer : Answer) : Except CallError String :=
  match answer.body with
  | .initiated uploadID => if uploadID = "" then .error .emptyUploadID else .ok uploadID
  | _ => .error .decode

def createMultipartUpload (ctx : Context) (replies : Nat → Reply) : Called String :=
  retry ctx replies .transport acceptCreate 3 0 none

def acceptPart (number : Nat) (answer : Answer) : Except CallError String :=
  let etag := trimSpace answer.etag
  if etag = "" then .error (.missingETag number) else .ok etag

def uploadMultipartPart (ctx : Context) (replies : Nat → Reply) (number : Nat) : Called String :=
  retry ctx replies .transport (acceptPart number) 3 0 none

/-- The body of an answer is read for the text of an error only. -/
def acceptComplete (_ : Answer) : Except CallError Unit := .ok ()

def completeMultipartUpload (ctx : Context) (replies : Nat → Reply) : Called Unit :=
  retry ctx replies .context acceptComplete 3 0 none

/-! ### What a call returns -/

def Reply.Retried : Reply → Prop
  | .failure => True
  | .answered answer => s3UploadOK answer.code = false ∧ isRetryableStatus answer.code = true

/-- The answer that ends the attempts with success: all before it are retried, and the context is
alive when its request is sent. -/
structure Decides (ctx : Context) (replies : Nat → Reply) (start attempt : Nat) (answer : Answer) :
    Prop where
  replied : replies attempt = .answered answer
  good : s3UploadOK answer.code = true
  retried : ∀ earlier, start ≤ earlier → earlier < attempt → (replies earlier).Retried
  alive : ctx.done (3 * attempt + 1) = false

theorem Context.alive_before {ctx : Context} {moment later : Nat} (alive : ctx.done later = false)
    (le : moment ≤ later) : ctx.done moment = false := by
  cases done : ctx.done moment with
  | false => rfl
  | true =>
    rw [ctx.mono le done] at alive
    cases alive

section

variable {α : Type} {ctx : Context} {replies : Nat → Reply} {cancelled : CallError}
  {accept : Answer → Except CallError α}

/-- A call that succeeds took the answer to its last request. -/
theorem ok_of_retry {left start : Nat} {lastErr : Option CallError} {value : α}
    (ok : (retry ctx replies cancelled accept left start lastErr).result = .ok value) :
    ∃ attempt answer, attempt < start + left ∧ Decides ctx replies start attempt answer ∧
      (retry ctx replies cancelled accept left start lastErr).sent.getLast? =
        some (.answered answer) ∧ accept answer = .ok value := by
  induction left generalizing start lastErr with
  | zero => cases ok
  | succ left ih =>
    rw [retry] at ok ⊢
    by_cases waited : 0 < start ∧ ctx.done (3 * start) = true
    · rw [if_pos waited] at ok
      cases ok
    rw [if_neg waited] at ok ⊢
    by_cases unsent : ctx.done (3 * start + 1) = true
    · rw [if_pos unsent] at ok
      cases ok
    rw [if_neg unsent] at ok ⊢
    -- Both retried replies go on to the same loop one attempt later.
    have later {err : CallError}
        (ok : (retry ctx replies cancelled accept left (start + 1) (some err)).result = .ok value)
        (retried : (replies start).Retried) :
        ∃ attempt answer, attempt < start + (left + 1) ∧
          Decides ctx replies start attempt answer ∧
          ((retry ctx replies cancelled accept left (start + 1) (some err)).after
            (replies start)).sent.getLast? = some (.answered answer) ∧ accept answer = .ok value := by
      obtain ⟨attempt, answer, inTime, decides, last, accepted⟩ := ih ok
      refine ⟨attempt, answer, by omega, ⟨decides.replied, decides.good, ?_, decides.alive⟩, ?_,
        accepted⟩
      · intro earlier notBefore before
        by_cases first : earlier = start
        · rw [first]
          exact retried
        · exact decides.retried earlier (by omega) before
      · rw [Called.after, List.getLast?_cons, last, Option.getD_some]
    cases replied : replies start with
    | failure =>
      rw [replied] at ok later
      dsimp only at ok ⊢
      by_cases stopped : ctx.done (3 * start + 2) = true
      · rw [if_pos stopped] at ok
        cases ok
      · rw [if_neg stopped] at ok ⊢
        exact later ok trivial
    | answered answer =>
      rw [replied] at ok later
      dsimp only at ok ⊢
      by_cases good : s3UploadOK answer.code = true
      · rw [if_pos good] at ok ⊢
        refine ⟨start, answer, by omega, ⟨replied, good, ?_, by simpa using unsent⟩, rfl, ok⟩
        intro earlier notBefore before
        omega
      · rw [if_neg good] at ok ⊢
        by_cases again : isRetryableStatus answer.code = true
        · rw [if_pos again] at ok ⊢
          exact later ok ⟨by simpa using good, again⟩
        · rw [if_neg again] at ok
          cases ok

theorem retry_of_decides {left start attempt : Nat} {lastErr : Option CallError} {answer : Answer}
    (decides : Decides ctx replies start attempt answer) (notBefore : start ≤ attempt)
    (inTime : attempt < start + left) :
    (retry ctx replies cancelled accept left start lastErr).result = accept answer ∧
      (retry ctx replies cancelled accept left start lastErr).sent.getLast? =
        some (.answered answer) := by
  induction left generalizing start lastErr with
  | zero => omega
  | succ left ih =>
    have alive {moment : Nat} (le : moment ≤ 3 * attempt + 1) : ctx.done moment = false :=
      Context.alive_before decides.alive le
    rw [retry, alive (by omega), alive (by omega), if_neg (by simp), if_neg (by simp)]
    by_cases here : start = attempt
    · subst here
      rw [decides.replied]
      dsimp only
      rw [if_pos decides.good]
      exact ⟨rfl, rfl⟩
    · have retried := decides.retried start (Nat.le_refl _) (by omega)
      have rest : Decides ctx replies (start + 1) attempt answer :=
        ⟨decides.replied, decides.good,
          fun earlier notBefore => decides.retried earlier (by omega), decides.alive⟩
      have later (err : Option CallError) := @ih (start + 1) err rest (by omega) (by omega)
      cases replied : replies start with
      | failure =>
        dsimp only
        rw [alive (by omega), if_neg (by simp), Called.after, List.getLast?_cons,
          (later _).2]
        exact ⟨(later _).1, rfl⟩
      | answered own =>
        rw [replied] at retried
        dsimp only
        rw [retried.1, if_neg (by simp), if_pos retried.2, Called.after, List.getLast?_cons,
          (later _).2]
        exact ⟨(later _).1, rfl⟩

/-- On a context that is done nothing is sent. -/
theorem retry_of_done {left start : Nat} {lastErr : Option CallError}
    (done : ctx.done 0 = true) :
    (retry ctx replies cancelled accept left start lastErr).sent = [] ∧
      ∀ value, (retry ctx replies cancelled accept left start lastErr).result ≠ .ok value := by
  have unsent : ∃ err, retry ctx replies cancelled accept left start lastErr = ⟨[], .error err⟩ := by
    cases left with
    | zero => exact ⟨_, rfl⟩
    | succ left =>
      have still : ctx.done (3 * start + 1) = true := ctx.mono (Nat.zero_le _) done
      refine ⟨.context, ?_⟩
      rw [retry, if_pos still]
      exact ite_self _
  obtain ⟨err, same⟩ := unsent
  rw [same]
  refine ⟨rfl, ?_⟩
  intro value ok
  cases ok

end

end DbBackup.Storage.Multipart
