import DbBackup.Lib.Chunks
import DbBackup.Lib.LineScan

/-!
Owns `Restore` and `bulkInsert` of `internal/database/engine/couch/ops.go`: the
lines of a dump, the batches sent to `_bulk_docs` and what is made of the answers.

Contract: a dump without a line that is too long is posted in batches of 500
documents, in order (`restore_posted`). `bulkInsert` reads the status of an answer
and not its body, so `Restore` returns nil exactly when no line was skipped
(`restore_ok_iff`), whatever CouchDB said about the documents.

`json.Valid` and `stripRev` are parameters here.
-/

set_option linter.all false

namespace DbBackup.Engine.Couch

open Lib.Chunks Lib.GoString Lib.LineScan

/-! ### Lines -/

structure JSON where
  valid : String → Bool
  stripRev : String → String

inductive Line where
  | ignored
  | skipped
  | document (cleaned : String)
deriving DecidableEq

def insertMarker : String := ".insert("

/-- `line[jsonStart : len(line)-1]`, trimmed. -/
def insertPayload (line : String) (index : Nat) : String :=
  let start := index + insertMarker.toList.length
  trimSpace (String.ofList ((line.toList.take (line.toList.length - 1)).drop start))

def readLine (json : JSON) (text : String) : Line :=
  let line := trimSpace text
  if line = "" ∨ hasPrefix line "//" then .ignored
  else
    match indexOf insertMarker.toList line.toList with
    | none => .skipped
    | some index =>
      if !hasPrefix line "db." || !hasSuffix line ")" then .skipped
      else if json.valid (insertPayload line index) then
        .document (json.stripRev (insertPayload line index))
      else .skipped

/-! ### Batches -/

def restoreBatchSize : Nat := 500

def maxLineBytes : Nat := 16 * 1024 * 1024

/-- An answer of `_bulk_docs`, with one result for each document. -/
inductive Reply where
  | failed
  | answered (status : Nat) (results : List Bool)

def bulkInsert : Reply → Except String Unit
  | .failed => .error "bulk_docs"
  | .answered status _ => if 300 ≤ status then .error "bulk_docs" else .ok ()

structure State where
  docs : List String := []
  posted : List (List String) := []
  skipped : Nat := 0

/-- What `Restore` returns, and the batches it sent. -/
structure Outcome where
  result : Except String Unit
  posted : List (List String)

/-- The answer to the batch with a number. -/
abbrev Server : Type := Nat → List String → Reply

/-- `flush`: the batch is sent before its answer is looked at. -/
def flush (server : Server) (state : State) : State × Except String Unit :=
  if state.docs.isEmpty then (state, .ok ())
  else
    ({ state with docs := [], posted := state.posted ++ [state.docs] },
      bulkInsert (server state.posted.length state.docs))

def finish (server : Server) (state : State) : Outcome :=
  match flush server state with
  | (state, .error message) => { result := .error message, posted := state.posted }
  | (state, .ok ()) =>
    { result := if 0 < state.skipped then .error "restore incomplete" else .ok ()
      posted := state.posted }

/-- The scanner's loop and what follows it. -/
def restoreLines (json : JSON) (server : Server) (state : State) : List String → Outcome
  | [] => finish server state
  | text :: rest =>
    if maxLineBytes ≤ text.utf8ByteSize then
      { result := .error "read dump", posted := state.posted }
    else
      match readLine json text with
      | .ignored => restoreLines json server state rest
      | .skipped => restoreLines json server { state with skipped := state.skipped + 1 } rest
      | .document cleaned =>
        let state := { state with docs := state.docs ++ [cleaned] }
        if restoreBatchSize ≤ state.docs.length then
          match flush server state with
          | (state, .error message) => { result := .error message, posted := state.posted }
          | (state, .ok ()) => restoreLines json server state rest
        else restoreLines json server state rest

def restore (json : JSON) (server : Server) (text : String) : Outcome :=
  restoreLines json server {} (textLines text)

/-! ### A server that answers 201 -/

/-- `_bulk_docs` answers 201 with one result for each document. -/
structure Results where
  results : Nat → List String → List Bool
  each : ∀ number docs, (results number docs).length = docs.length

def Results.server (results : Results) : Server :=
  fun number docs => .answered 201 (results.results number docs)

theorem bulkInsert_server (results : Results) (number : Nat) (docs : List String) :
    bulkInsert (results.server number docs) = .ok () := rfl

/-- The documents in the lines of a dump. -/
def Line.document? : Line → Option String
  | .document cleaned => some cleaned
  | _ => none

def documents (json : JSON) (lines : List String) : List String :=
  lines.filterMap fun text => (readLine json text).document?

def skippedLines (json : JSON) (lines : List String) : List String :=
  lines.filter fun text => readLine json text = .skipped

variable (json : JSON)

theorem restoreLines_spec (results : Results) {state : State}
    (room : state.docs.length < restoreBatchSize) {lines : List String}
    (short : ∀ text ∈ lines, text.utf8ByteSize < maxLineBytes) :
    restoreLines json results.server state lines =
      { result := if 0 < state.skipped + (skippedLines json lines).length then
          .error "restore incomplete" else .ok ()
        posted := state.posted ++
          chunks restoreBatchSize state.docs (documents json lines) } := by
  induction lines generalizing state with
  | nil =>
    unfold restoreLines finish flush
    cases docs : state.docs with
    | nil => simp [chunks, skippedLines, documents]
    | cons doc others => simp [chunks, skippedLines, documents, bulkInsert_server]
  | cons text rest ih =>
    have fits : ¬ maxLineBytes ≤ text.utf8ByteSize :=
      Nat.not_le_of_lt (short text List.mem_cons_self)
    have restShort : ∀ other ∈ rest, other.utf8ByteSize < maxLineBytes :=
      (List.forall_mem_cons.mp short).2
    rw [restoreLines, if_neg fits]
    cases read : readLine json text with
    | ignored =>
      have sameDocs : documents json (text :: rest) = documents json rest := by
        simp [documents, read, Line.document?]
      have sameSkipped : skippedLines json (text :: rest) = skippedLines json rest := by
        simp [skippedLines, read]
      rw [sameDocs, sameSkipped]
      exact ih room restShort
    | skipped =>
      have sameDocs : documents json (text :: rest) = documents json rest := by
        simp [documents, read, Line.document?]
      have oneMore : state.skipped + (skippedLines json (text :: rest)).length =
          state.skipped + 1 + (skippedLines json rest).length := by
        simp only [skippedLines, read, decide_true, List.filter_cons_of_pos, List.length_cons]
        omega
      rw [sameDocs, oneMore]
      exact @ih { state with skipped := state.skipped + 1 } room restShort
    | document cleaned =>
      have oneMore : documents json (text :: rest) = cleaned :: documents json rest := by
        simp [documents, read, Line.document?]
      have sameSkipped : skippedLines json (text :: rest) = skippedLines json rest := by
        simp [skippedLines, read]
      rw [oneMore, sameSkipped, chunks]
      by_cases full : restoreBatchSize ≤ state.docs.length + 1
      · have grown : restoreBatchSize ≤ (state.docs ++ [cleaned]).length := by
          rw [List.length_append]
          exact full
        have rested := @ih
          { docs := [], posted := state.posted ++ [state.docs ++ [cleaned]]
            skipped := state.skipped } (show 0 < restoreBatchSize by decide) restShort
        have flushed : flush results.server { state with docs := state.docs ++ [cleaned] } =
            ({ docs := [], posted := state.posted ++ [state.docs ++ [cleaned]]
               skipped := state.skipped }, .ok ()) := by
          simp [flush, bulkInsert_server]
        simp only [grown, ↓reduceIte, if_pos full, flushed]
        rw [rested, List.append_assoc, List.singleton_append]
      · have notGrown : ¬ restoreBatchSize ≤ (state.docs ++ [cleaned]).length := by
          rw [List.length_append]
          exact full
        simp only [notGrown, ↓reduceIte, if_neg full]
        exact @ih { state with docs := state.docs ++ [cleaned] }
          (Nat.lt_of_not_le notGrown) restShort

theorem restoreLines_long (server : Server) (state : State) {lines : List String}
    (long : ∃ text ∈ lines, maxLineBytes ≤ text.utf8ByteSize) :
    (restoreLines json server state lines).result ≠ .ok () := by
  induction lines generalizing state with
  | nil =>
    obtain ⟨text, member, -⟩ := long
    exact absurd member List.not_mem_nil
  | cons text rest ih =>
    rw [restoreLines]
    split
    · exact fun ok => nomatch ok
    · rename_i fits
      have later : ∃ other ∈ rest, maxLineBytes ≤ other.utf8ByteSize := by
        obtain ⟨other, member, isLong⟩ := long
        rcases List.mem_cons.mp member with rfl | inRest
        · exact absurd isLong fits
        · exact ⟨other, inRest, isLong⟩
      cases readLine json text with
      | ignored => exact ih state later
      | skipped => exact ih _ later
      | document cleaned =>
        simp only []
        split
        · split
          · exact fun ok => nomatch ok
          · exact ih _ later
        · exact ih _ later

theorem restore_ok_iff (results : Results) (text : String) :
    (restore json results.server text).result = .ok () ↔
      (∀ line ∈ textLines text, line.utf8ByteSize < maxLineBytes) ∧
        ∀ line ∈ textLines text, readLine json line ≠ .skipped := by
  by_cases short : ∀ line ∈ textLines text, line.utf8ByteSize < maxLineBytes
  · have room : ({} : State).docs.length < restoreBatchSize := by decide
    unfold restore
    rw [restoreLines_spec json results room short]
    have none : (0 < ({} : State).skipped + (skippedLines json (textLines text)).length) ↔
        ¬ ∀ line ∈ textLines text, readLine json line ≠ .skipped := by
      rw [show ({} : State).skipped = 0 from rfl, Nat.zero_add, List.length_pos_iff, ne_eq,
        skippedLines, List.filter_eq_nil_iff]
      simp
    by_cases allRead : ∀ line ∈ textLines text, readLine json line ≠ .skipped
    · exact iff_of_true (if_neg fun some => none.mp some allRead) ⟨short, allRead⟩
    · refine iff_of_false ?_ fun both => allRead both.2
      rw [if_pos (none.mpr allRead)]
      exact fun ok => nomatch ok
  · refine iff_of_false (restoreLines_long json _ _ ?_) fun both => short both.1
    push Not at short
    exact short

theorem restore_posted (results : Results) {text : String}
    (short : ∀ line ∈ textLines text, line.utf8ByteSize < maxLineBytes) :
    (restore json results.server text).posted =
      chunks restoreBatchSize [] (documents json (textLines text)) := by
  have room : ({} : State).docs.length < restoreBatchSize := by decide
  unfold restore
  rw [restoreLines_spec json results room short]
  rfl

/-! ### Rejected documents -/

/-- Every document of the dump was sent and got the result ok. -/
def AllStored (json : JSON) (results : Results) (text : String) : Prop :=
  (restore json results.server text).posted.flatten = documents json (textLines text) ∧
    ∀ number batch, (restore json results.server text).posted[number]? = some batch →
      ∀ ok ∈ results.results number batch, ok = true

/-- Nil is returned only if every document of the dump was stored. -/
def ReportsRejected (json : JSON) (results : Results) (text : String) : Prop :=
  (restore json results.server text).result = .ok () → AllStored json results text

/-- The results of the batches of 500 documents the dump is cut into. -/
def AllAccepted (json : JSON) (results : Results) (text : String) : Prop :=
  ∀ number batch,
    (chunks restoreBatchSize [] (documents json (textLines text)))[number]? = some batch →
      ∀ ok ∈ results.results number batch, ok = true

theorem allAccepted_of_reportsRejected {json : JSON} {results : Results} {text : String}
    (short : ∀ line ∈ textLines text, line.utf8ByteSize < maxLineBytes)
    (allRead : ∀ line ∈ textLines text, readLine json line ≠ .skipped)
    (reports : ReportsRejected json results text) : AllAccepted json results text := by
  have stored := (reports ((restore_ok_iff json results text).mpr ⟨short, allRead⟩)).2
  rw [restore_posted json results short] at stored
  exact stored

theorem reportsRejected_iff (json : JSON) (results : Results) (text : String) :
    ReportsRejected json results text ↔
      (∃ line ∈ textLines text, maxLineBytes ≤ line.utf8ByteSize) ∨
        (∃ line ∈ textLines text, readLine json line = .skipped) ∨
          AllAccepted json results text := by
  constructor
  · intro reports
    by_cases short : ∀ line ∈ textLines text, line.utf8ByteSize < maxLineBytes
    · by_cases allRead : ∀ line ∈ textLines text, readLine json line ≠ .skipped
      · exact .inr (.inr (allAccepted_of_reportsRejected short allRead reports))
      · push Not at allRead
        exact .inr (.inl allRead)
    · push Not at short
      exact .inl short
  · intro cases' ok
    obtain ⟨short, allRead⟩ := (restore_ok_iff json results text).mp ok
    rcases cases' with ⟨line, member, long⟩ | ⟨line, member, skipped⟩ | accepted
    · exact absurd (short line member) (Nat.not_lt_of_le long)
    · exact absurd skipped (allRead line member)
    · unfold AllStored
      rw [restore_posted json results short, flatten_chunks]
      exact ⟨rfl, accepted⟩

/-- CouchDB reports a conflict for each document. -/
def conflict : Results where
  results _ docs := docs.map fun _ => false
  each _ _ := List.length_map _

def anyJSON : JSON := { valid := fun _ => true, stripRev := fun raw => raw }

def conflictLine : String := "db.shop.insert(\x7b\"_id\":\"a\"\x7d)"

theorem conflict_not_reported :
    ¬ ReportsRejected anyJSON conflict (joinLines [conflictLine]) := by
  intro reports
  have lines : textLines (joinLines [conflictLine]) = [conflictLine] :=
    textLines_joinLines (by decide)
  have read : readLine anyJSON conflictLine = .document "\x7b\"_id\":\"a\"\x7d" := by
    decide +kernel
  have accepted := allAccepted_of_reportsRejected
    (by
      rw [lines]
      decide)
    (by
      rw [lines]
      intro line member
      rw [List.mem_singleton.mp member, read]
      exact Line.noConfusion) reports
  have onlyDocument : documents anyJSON (textLines (joinLines [conflictLine])) =
      ["\x7b\"_id\":\"a\"\x7d"] := by
    simp [lines, documents, read, Line.document?]
  unfold AllAccepted at accepted
  rw [onlyDocument] at accepted
  exact absurd (accepted 0 _ rfl false (List.mem_singleton_self _)) (by decide)

end DbBackup.Engine.Couch
