import DbBackup.Lib.Chunks
import DbBackup.Lib.Reach
import DbBackup.Pipeline.Codec

/-!
Owns the parallel compressor `chunkWriter` of `internal/compress/compress.go`: `Write`, `submit`
with its goroutines, `collect` and `Close`, as a step relation.

A state holds what the writer, its goroutines and its collector share. The client makes its
`Write` calls one after the other and then closes; every goroutine waits for a slot, encodes its
segment, gives the slot back and sends its result; the collector receives results, keeps those
that come early and writes the others to the output. Each of them can take the next step, in any
order, and a write to the output can fail after it stored a part of its argument.

Does not own: the encoders (`encode`, by the number of the segment), a `Write` after `Close` and
a second `Close`.
-/

set_option linter.all false

namespace DbBackup.Pipeline.ChunkWriter

open Lib Relation

def rsyncSegmentSize : Nat := 2 ^ 20

theorem rsyncSegmentSize_pos : 0 < rsyncSegmentSize := by
  decide

/-! ### States -/

structure ChunkResult where
  seq : Nat
  buf : Except String Bytes

/-- A goroutine of `submit`. -/
inductive Job where
  /-- At `w.slots <- struct{}{}`. -/
  | waiting (seq : Nat) (seg : Bytes)
  /-- Holds a slot. -/
  | encoding (seq : Nat) (seg : Bytes)
  /-- At `w.results <- res`. -/
  | sending (res : ChunkResult)

def Job.seq : Job → Nat
  | .waiting seq _ => seq
  | .encoding seq _ => seq
  | .sending res => res.seq

def Job.isEncoding : Job → Bool
  | .encoding _ _ => true
  | _ => false

inductive Client where
  /-- The `Write` calls to come; the first one may be half done. -/
  | writing (rest : List Bytes)
  /-- In `Close`, at `w.wg.Wait()`. -/
  | waiting
  /-- In `Close`, with the results closed, at `<-w.finish`. -/
  | closed
  | returned (err : Option String)

def Client.rest : Client → List Bytes
  | .writing rest => rest
  | _ => []

inductive Phase where
  /-- At the head of the loop of `collect`. -/
  | receiving
  /-- About to write the result that was due. -/
  | writing (buf : Bytes)
  /-- At the head of the loop that writes what came early. -/
  | draining
  /-- `firstErr` is in `w.finish`. -/
  | finished

/-- A call of `w.out.Write`: what it stored, and its error. -/
structure Call where
  stored : Bytes
  err : Option String

structure State where
  client : Client
  cur : Bytes := []
  seq : Nat := 0
  jobs : List Job := []
  results : List ChunkResult := []
  next : Nat := 0
  pending : List (Nat × Bytes) := []
  firstErr : Option String := none
  stopped : Bool := false
  phase : Phase := .receiving
  calls : List Call := []

/-- A writer that is made for these calls of `Write`. -/
def newChunkWriter (writes : List Bytes) : State := { client := .writing writes }

/-- The capacity of `w.slots`. -/
def slots (threads : Int) : Nat := if threads < 1 then 1 else threads.toNat

/-- The capacity of `w.results`. -/
def bufSize (threads : Int) : Nat := max (slots threads * 4) 16

namespace State

/-- What the output holds. -/
def out (s : State) : Bytes := s.calls.flatMap Call.stored

/-! ### What the client does -/

def submit (s : State) (seg : Bytes) : State :=
  { s with jobs := s.jobs ++ [.waiting s.seq seg], seq := s.seq + 1 }

/-- One turn of the loop of `Write`. -/
def take (s : State) (p : Bytes) (rest : List Bytes) : State :=
  let room := rsyncSegmentSize - s.cur.length
  let cur := s.cur ++ p.take room
  let client := .writing (p.drop room :: rest)
  if cur.length = rsyncSegmentSize then { s.submit cur with client, cur := [] }
  else { s with client, cur }

def close (s : State) : State :=
  if s.cur.length > 0 then { s.submit s.cur with client := .waiting, cur := [] }
  else { s with client := .waiting }

/-! ### What the collector does -/

def fail (s : State) (err : String) : State :=
  { s with firstErr := some err, stopped := true, phase := .receiving }

def receive (s : State) (res : ChunkResult) (rest : List ChunkResult) : State :=
  let s := { s with results := rest }
  if s.stopped then s
  else
    match res.buf with
    | .error err => s.fail err
    | .ok buf =>
      if res.seq = s.next then { s with phase := .writing buf }
      else { s with pending := (res.seq, buf) :: s.pending.filter fun entry => entry.1 ≠ res.seq }

/-- What the next call of `w.out.Write` is given. -/
def due (s : State) : Option Bytes :=
  match s.phase with
  | .writing buf => some buf
  | .draining => s.pending.lookup s.next
  | _ => none

def wrote (s : State) (buf : Bytes) : State :=
  let pending :=
    match s.phase with
    | .draining => s.pending.filter fun entry => entry.1 ≠ s.next
    | _ => s.pending
  { s with calls := s.calls ++ [⟨buf, none⟩], pending, next := s.next + 1, phase := .draining }

def wroteBadly (s : State) (stored : Bytes) (err : String) : State :=
  fail { s with calls := s.calls ++ [⟨stored, some err⟩] } err

end State

/-! ### Steps -/

section Steps

variable (threads : Int) (encode : Nat → Bytes → Except String Bytes)

inductive Step : State → State → Prop where
  | take {s : State} {p : Bytes} {rest : List Bytes} (calls : s.client = .writing (p :: rest))
      (more : p ≠ []) : Step s (s.take p rest)
  | nextWrite {s : State} {rest : List Bytes} (calls : s.client = .writing ([] :: rest)) :
      Step s { s with client := .writing rest }
  | close {s : State} (calls : s.client = .writing []) : Step s s.close
  | closeResults {s : State} (waits : s.client = .waiting) (noJob : s.jobs = []) :
      Step s { s with client := .closed }
  | closeReturns {s : State} (waits : s.client = .closed) (finished : s.phase = .finished) :
      Step s { s with client := .returned s.firstErr }
  | start {s : State} {before after : List Job} {seq : Nat} {seg : Bytes}
      (job : s.jobs = before ++ .waiting seq seg :: after)
      (slot : s.jobs.countP Job.isEncoding < slots threads) :
      Step s { s with jobs := before ++ .encoding seq seg :: after }
  | encode {s : State} {before after : List Job} {seq : Nat} {seg : Bytes}
      (job : s.jobs = before ++ .encoding seq seg :: after) :
      Step s { s with jobs := before ++ .sending ⟨seq, encode seq seg⟩ :: after }
  | send {s : State} {before after : List Job} {res : ChunkResult}
      (job : s.jobs = before ++ .sending res :: after)
      (room : s.results.length < bufSize threads) :
      Step s { s with jobs := before ++ after, results := s.results ++ [res] }
  | receive {s : State} {res : ChunkResult} {rest : List ChunkResult}
      (receives : s.phase = .receiving) (first : s.results = res :: rest) :
      Step s (s.receive res rest)
  | write {s : State} {buf : Bytes} (due : s.due = some buf) : Step s (s.wrote buf)
  | writeFails {s : State} {buf : Bytes} (due : s.due = some buf) (kept : Nat) (err : String) :
      Step s (s.wroteBadly (buf.take kept) err)
  | drained {s : State} (drains : s.phase = .draining) (nothing : s.due = none) :
      Step s { s with phase := .receiving }
  | finish {s : State} (receives : s.phase = .receiving) (empty : s.results = [])
      (closed : s.client = .closed) : Step s { s with phase := .finished }

/-- The states of the runs of a writer that is given these calls. -/
def Reaches (writes : List Bytes) : State → Prop :=
  ReflTransGen (Step threads encode) (newChunkWriter writes)

end Steps

/-! ### What is expected -/

/-- The consecutive full segments and the last partial one. -/
def segments (data : Bytes) : List Bytes := Chunks.chunks rsyncSegmentSize [] data

def encodings (encode : Nat → Bytes → Except String Bytes) (data : Bytes) :
    List (Except String Bytes) := (segments data).mapIdx encode

def isOk : Except String Bytes → Bool
  | .ok _ => true
  | .error _ => false

def okBytes : Except String Bytes → Bytes
  | .ok bytes => bytes
  | .error _ => []

/-- The concatenated encodings of the segments before the first one whose encoder failed. -/
def encodedBefore (results : List (Except String Bytes)) : Bytes :=
  (results.takeWhile isOk).flatMap okBytes

/-- How many segments are submitted and not yet written to the output. -/
def State.held (s : State) : Nat :=
  s.jobs.length + s.results.length + s.pending.length +
    match s.phase with
    | .writing _ => 1
    | _ => 0

end DbBackup.Pipeline.ChunkWriter
