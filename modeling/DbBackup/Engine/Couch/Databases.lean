import DbBackup.Engine.Couch.Restore
import DbBackup.Lib.Marked

/-!
Owns a dump of several databases by `Dump` and `dumpDatabase` of
`internal/database/engine/couch/couch.go`, and which of them the documents come
from that `Restore` posts.

Contract: the documents are posted in the order of the dump; all of them if every
line can be scanned, and else the whole batches before the first line that is too
long (`posted_restore`).
-/

set_option linter.all false

namespace DbBackup.Engine.Couch

open Lib.GoString Lib.LineScan Lib.Marked

/-! ### The text -/

/-- A database with the texts `dumpPage` marshals its documents to. -/
structure SourceDatabase where
  name : String
  docs : List String
  nameLine : OneLine name
  docLine : ∀ doc ∈ docs, OneLine doc

def insertLine (dbName doc : String) : String := "db." ++ dbName ++ ".insert(" ++ doc ++ ")"

def databaseLines (database : SourceDatabase) : List String :=
  ("// Database: " ++ database.name) :: (database.docs.map (insertLine database.name) ++ [""])

/-- The texts of the comments before the first database. -/
structure BannerTexts where
  version : String
  dumped : String
  detail : String

def BannerTexts.lines (texts : BannerTexts) : List String :=
  ["// db-backup | CouchDB | " ++ texts.version, "// Dumped: " ++ texts.dumped,
    "// " ++ texts.detail, "//", ""]

structure Banner extends BannerTexts where
  oneLine : ∀ line ∈ toBannerTexts.lines, OneLine line

def dumpLines (banner : Banner) (databases : List SourceDatabase) : List String :=
  banner.lines ++ (databases.map databaseLines).flatten

def dump (banner : Banner) (databases : List SourceDatabase) : String :=
  joinLines (dumpLines banner databases)

theorem oneLine_databaseLines (database : SourceDatabase) :
    ∀ line ∈ databaseLines database, OneLine line := by
  intro line member
  rcases List.mem_cons.mp member with rfl | later
  · exact OneLine.append (by decide) database.nameLine
  rcases List.mem_append.mp later with isDoc | isBlank
  · obtain ⟨doc, inDocs, rfl⟩ := List.mem_map.mp isDoc
    exact (((OneLine.append (by decide) database.nameLine).append (by decide)).append
      (database.docLine doc inDocs)).append (by decide)
  · rw [List.mem_singleton.mp isBlank]
    decide

theorem textLines_dump (banner : Banner) (databases : List SourceDatabase) :
    textLines (dump banner databases) = dumpLines banner databases := by
  apply textLines_joinLines
  intro line member
  rcases List.mem_append.mp member with inBanner | inDatabases
  · exact banner.oneLine line inBanner
  · obtain ⟨lines, isPart, inPart⟩ := List.mem_flatten.mp inDatabases
    obtain ⟨database, -, rfl⟩ := List.mem_map.mp isPart
    exact oneLine_databaseLines database line inPart

/-! ### How many documents are posted -/

def scannable (lines : List String) : List String :=
  lines.takeWhile fun text => decide (text.utf8ByteSize < maxLineBytes)

/-- The documents that are posted of a number that waits and those of the lines. -/
def sentCount (json : JSON) (waiting : Nat) (lines : List String) : Nat :=
  let count := waiting + (documents json (scannable lines)).length
  if (scannable lines).length = lines.length then count else count - count % restoreBatchSize

theorem scannable_cons {text : String} (fits : text.utf8ByteSize < maxLineBytes)
    (rest : List String) : scannable (text :: rest) = text :: scannable rest :=
  List.takeWhile_cons_of_pos (decide_eq_true fits)

theorem sentCount_cons {json : JSON} {text : String} (fits : text.utf8ByteSize < maxLineBytes)
    (rest : List String) (waiting : Nat) :
    sentCount json waiting (text :: rest) =
      sentCount json (waiting + (readLine json text).document?.toList.length) rest := by
  have more : (documents json (text :: scannable rest)).length =
      (readLine json text).document?.toList.length + (documents json (scannable rest)).length := by
    unfold documents
    rw [List.filterMap_cons]
    cases (readLine json text).document? with
    | none => simp
    | some doc =>
      simp only [List.length_cons, Option.toList_some, List.length_nil]
      omega
  unfold sentCount
  simp only [scannable_cons fits, more, List.length_cons, Nat.add_right_cancel_iff, Nat.add_assoc]

variable (json : JSON)

theorem sentCount_full (lines : List String) :
    sentCount json restoreBatchSize lines = restoreBatchSize + sentCount json 0 lines := by
  unfold sentCount
  simp only [Nat.zero_add, Nat.add_mod_left]
  split
  · rfl
  · have less := Nat.mod_le (documents json (scannable lines)).length restoreBatchSize
    omega

theorem posted_restoreLines (json : JSON) (results : Results) {state : State}
    (room : state.docs.length < restoreBatchSize) (lines : List String) :
    (restoreLines json results.server state lines).posted.flatten =
      state.posted.flatten ++ (state.docs ++ documents json lines).take
        (sentCount json state.docs.length lines) := by
  induction lines generalizing state with
  | nil =>
    have all : sentCount json state.docs.length [] = state.docs.length := rfl
    rw [all, show documents json [] = [] from rfl, List.append_nil, List.take_length]
    unfold restoreLines finish flush
    cases docs : state.docs with
    | nil => simp
    | cons doc others => simp [bulkInsert_server]
  | cons text rest ih =>
    by_cases fits : text.utf8ByteSize < maxLineBytes
    · rw [restoreLines, if_neg (Nat.not_le_of_lt fits), sentCount_cons fits]
      cases read : readLine json text with
      | ignored =>
        have same : documents json (text :: rest) = documents json rest := by
          simp [documents, read, Line.document?]
        rw [same]
        exact ih room
      | skipped =>
        have same : documents json (text :: rest) = documents json rest := by
          simp [documents, read, Line.document?]
        rw [same]
        exact @ih { state with skipped := state.skipped + 1 } room
      | document cleaned =>
        have more : documents json (text :: rest) = cleaned :: documents json rest := by
          simp [documents, read, Line.document?]
        have grown : (state.docs ++ [cleaned]).length = state.docs.length + 1 := by simp
        rw [more, List.append_cons]
        change (if restoreBatchSize ≤ (state.docs ++ [cleaned]).length then _ else _ :
          Outcome).posted.flatten = _ ++ List.take (sentCount json (state.docs.length + 1) rest) _
        by_cases full : restoreBatchSize ≤ (state.docs ++ [cleaned]).length
        · have flushed : flush results.server
              { state with docs := state.docs ++ [cleaned] } =
              ({ docs := [], posted := state.posted ++ [state.docs ++ [cleaned]]
                 skipped := state.skipped }, .ok ()) := by
            simp [flush, bulkInsert_server]
          have exact' : (state.docs ++ [cleaned]).length = restoreBatchSize := by
            rw [grown] at full ⊢
            omega
          have rested := @ih
            { docs := [], posted := state.posted ++ [state.docs ++ [cleaned]]
              skipped := state.skipped } (show 0 < restoreBatchSize by decide)
          rw [if_pos full, flushed, ← grown, exact', sentCount_full, ← exact',
            List.take_length_add_append]
          change (restoreLines json results.server _ rest).posted.flatten = _
          rw [rested]
          simp
        · rw [if_neg full, ← grown]
          exact @ih { state with docs := state.docs ++ [cleaned] }
            (Nat.lt_of_not_le full)
    · have long : maxLineBytes ≤ text.utf8ByteSize := Nat.le_of_not_lt fits
      have none : scannable (text :: rest) = [] :=
        List.takeWhile_cons_of_neg (by simpa using long)
      have nothing : sentCount json state.docs.length (text :: rest) = 0 := by
        unfold sentCount
        rw [none]
        simp [documents, Nat.mod_eq_of_lt room]
      rw [restoreLines, if_pos long, nothing]
      simp

theorem posted_restore (results : Results) (text : String) :
    (restore json results.server text).posted.flatten =
      (documents json (textLines text)).take (sentCount json 0 (textLines text)) :=
  @posted_restoreLines json results {} (show 0 < restoreBatchSize by decide) _

/-! ### Where the documents come from -/

/-- A blank name, or all: `Restore` wants a single database. -/
def refused (dbName : String) : Bool := trimSpace dbName = "" || equalFold dbName "all"

/-- `Restore` with its target. -/
def restoreInto (json : JSON) (server : Server) (dbName text : String) : Outcome :=
  if refused dbName then
    { result := .error "couchdb restore requires a single target --name", posted := [] }
  else restore json server text

def markedLines (banner : Banner) (databases : List SourceDatabase) : List (Option Nat × String) :=
  banner.lines.map (none, ·) ++ numbered 0 (databases.map databaseLines)

theorem map_snd_markedLines (banner : Banner) (databases : List SourceDatabase) :
    (markedLines banner databases).map Prod.snd = textLines (dump banner databases) := by
  rw [markedLines, List.map_append, map_snd_numbered, map_snd_mark, textLines_dump, dumpLines]

def markedDocuments (json : JSON) (lines : List (Option Nat × String)) :
    List (Option Nat × String) :=
  lines.filterMap fun line => (readLine json line.2).document?.map (line.1, ·)

theorem map_snd_markedDocuments (lines : List (Option Nat × String)) :
    (markedDocuments json lines).map Prod.snd = documents json (lines.map Prod.snd) := by
  induction lines with
  | nil => rfl
  | cons line rest ih =>
    unfold markedDocuments documents at ih ⊢
    rw [List.map_cons, List.filterMap_cons, List.filterMap_cons]
    cases (readLine json line.2).document? with
    | none => exact ih
    | some doc => exact congrArg (doc :: ·) ih

/-- The posted documents of a dump, with the databases they come from: posts keep the order
of the lines. -/
def postedFrom (json : JSON) (results : Results) (dbName : String) (banner : Banner)
    (databases : List SourceDatabase) : List (Option Nat × String) :=
  (markedDocuments json (markedLines banner databases)).take
    (restoreInto json results.server dbName (dump banner databases)).posted.flatten.length

/-- The documents that come before the end of what is posted. -/
def sentDocuments (json : JSON) (banner : Banner) (databases : List SourceDatabase) :
    List (Option Nat × String) :=
  (markedDocuments json (markedLines banner databases)).take
    (sentCount json 0 (dumpLines banner databases))

theorem postedFrom_eq (results : Results) {dbName : String} (banner : Banner)
    (databases : List SourceDatabase) (accepted : refused dbName = false) :
    postedFrom json results dbName banner databases = sentDocuments json banner databases := by
  have length : (markedDocuments json (markedLines banner databases)).length =
      (documents json (dumpLines banner databases)).length := by
    rw [← textLines_dump, ← map_snd_markedLines, ← map_snd_markedDocuments, List.length_map]
  unfold postedFrom sentDocuments restoreInto
  rw [accepted]
  simp only [Bool.false_eq_true, ↓reduceIte]
  rw [posted_restore, List.length_take, textLines_dump, ← length]
  exact List.take_eq_take_min.symm

theorem postedFrom_refused (results : Results) {dbName : String} (banner : Banner)
    (databases : List SourceDatabase) (isRefused : refused dbName = true) :
    postedFrom json results dbName banner databases = [] := by
  unfold postedFrom restoreInto
  rw [isRefused]
  rfl

end DbBackup.Engine.Couch
