import DbBackup.Engine.Mongo.Delivery
import DbBackup.Lib.Marked

/-!
Owns a dump of several databases by `Dump` and `dumpDatabase` of
`internal/database/engine/mongo/mongo.go`, with collection options and views, and
which of them the calls of `Restore` come from.

Contract: a database's part of the dump leaves no insert open, so that what is read
from it does not depend on the databases before it; the calls come from the
databases up to the first whose part ends the restore (`exists_call_iff`).

Does not own what the calls carry; that is `Delivery`.
-/

set_option linter.all false

namespace DbBackup.Engine.Mongo

open Lib.GoString Lib.LineScan Lib.Marked

variable {Doc : Type}

/-! ### The text -/

/-- What `listCollections` finds: a collection with the options that are kept, or a view. -/
inductive Entry (Doc : Type) where
  | collection (options : Option Doc) (col : Collection Doc)
  | view (name : String) (spec : Doc)

def Entry.name : Entry Doc → String
  | .collection _ col => col.name
  | .view name _ => name

structure SourceDatabase (Doc : Type) where
  name : String
  entries : List (Entry Doc)
  nameLine : OneLine name
  entryLine : ∀ entry ∈ entries, OneLine entry.name

def optionsLine (json : ExtJSON Doc) (name : String) (options : Doc) : String :=
  "db." ++ name ++ ".createCollection(" ++ json.marshal options ++ ")"

def viewLine (json : ExtJSON Doc) (name : String) (spec : Doc) : String :=
  "db." ++ name ++ ".createView(" ++ json.marshal spec ++ ")"

def dumpCollectionOptions (json : ExtJSON Doc) (name : String) (options : Option Doc) : String :=
  match options with
  | none => ""
  | some spec => optionsLine json name spec ++ "\n"

def dumpView (json : ExtJSON Doc) (name : String) (spec : Doc) : String :=
  "// View: " ++ name ++ "\n" ++ viewLine json name spec ++ "\n\n"

def dumpEntry (json : ExtJSON Doc) : Entry Doc → String
  | .collection options col =>
    dumpCollectionOptions json col.name options ++ dumpCollection json col
  | .view name spec => dumpView json name spec

def dumpEntries (json : ExtJSON Doc) : List (Entry Doc) → String
  | [] => ""
  | entry :: rest => dumpEntry json entry ++ dumpEntries json rest

def dumpDatabase (json : ExtJSON Doc) (database : SourceDatabase Doc) : String :=
  "\n// Database: " ++ database.name ++ "\n\n" ++ dumpEntries json database.entries

def dumpEach (json : ExtJSON Doc) : List (SourceDatabase Doc) → String
  | [] => ""
  | database :: rest => dumpDatabase json database ++ dumpEach json rest

/-- `DumpBanner` and the lines after it. -/
def BannerTexts.headLines (texts : BannerTexts) : List String :=
  ["// db-backup | MongoDB | " ++ texts.version, "// Dumped: " ++ texts.dumped,
    "// " ++ texts.detail, "//", ""]

def dumpDatabases (json : ExtJSON Doc) (banner : Banner) (databases : List (SourceDatabase Doc)) :
    String :=
  joinLines banner.headLines ++ dumpEach json databases

/-! ### Its lines -/

def entryLines (json : ExtJSON Doc) : Entry Doc → List String
  | .collection options col =>
    (options.map (optionsLine json col.name)).toList ++ collectionLines json col
  | .view name spec => ["// View: " ++ name, viewLine json name spec, ""]

def databaseLines (json : ExtJSON Doc) (database : SourceDatabase Doc) : List String :=
  ["", "// Database: " ++ database.name, ""] ++ database.entries.flatMap (entryLines json)

variable (json : ExtJSON Doc)

theorem dumpEntry_eq (entry : Entry Doc) :
    dumpEntry json entry = joinLines (entryLines json entry) := by
  cases entry with
  | collection options col =>
    rw [dumpEntry, entryLines, joinLines_append, dumpCollection_eq]
    cases options with
    | none => rfl
    | some spec => simp [dumpCollectionOptions, joinLines_cons, joinLines_nil]
  | view name spec =>
    rw [dumpEntry, entryLines, joinLines_cons, joinLines_cons, joinLines_cons, joinLines_nil]
    apply String.toList_injective
    simp [dumpView]

theorem dumpEntries_eq (entries : List (Entry Doc)) :
    dumpEntries json entries = joinLines (entries.flatMap (entryLines json)) := by
  induction entries with
  | nil => rfl
  | cons entry rest ih =>
    rw [dumpEntries, List.flatMap_cons, joinLines_append, ih, dumpEntry_eq]

theorem dumpDatabase_eq (database : SourceDatabase Doc) :
    dumpDatabase json database = joinLines (databaseLines json database) := by
  have heading : joinLines ["", "// Database: " ++ database.name, ""] =
      "\n// Database: " ++ database.name ++ "\n\n" := by
    apply String.toList_injective
    simp [joinLines]
  unfold dumpDatabase databaseLines
  rw [joinLines_append, dumpEntries_eq, heading]

theorem dumpEach_eq (databases : List (SourceDatabase Doc)) :
    dumpEach json databases = joinLines (databases.flatMap (databaseLines json)) := by
  induction databases with
  | nil => rfl
  | cons database rest ih =>
    rw [dumpEach, List.flatMap_cons, joinLines_append, ih, dumpDatabase_eq]

theorem oneLine_statement {name text : String} (word : String) (wordLine : OneLine word)
    (nameLine : OneLine name) (textLine : OneLine text) :
    OneLine ("db." ++ name ++ word ++ text ++ ")") :=
  (((OneLine.append (by decide) nameLine).append wordLine).append textLine).append (by decide)

theorem oneLine_entryLines {entry : Entry Doc} (nameLine : OneLine entry.name) :
    ∀ line ∈ entryLines json entry, OneLine line := by
  intro line member
  cases entry with
  | collection options col =>
    rcases List.mem_append.mp member with isOptions | isCollection
    · obtain ⟨spec, -, rfl⟩ := Option.map_eq_some_iff.mp (Option.mem_toList.mp isOptions)
      exact oneLine_statement _ (by decide) nameLine (json.marshal_oneLine spec)
    · exact oneLine_collectionLines json nameLine line isCollection
  | view name spec =>
    simp only [entryLines, List.mem_cons, List.not_mem_nil, or_false] at member
    rcases member with rfl | rfl | rfl
    · exact OneLine.append (by decide) nameLine
    · exact oneLine_statement _ (by decide) nameLine (json.marshal_oneLine spec)
    · decide

theorem oneLine_databaseLines (database : SourceDatabase Doc) :
    ∀ line ∈ databaseLines json database, OneLine line := by
  intro line member
  rcases List.mem_append.mp member with isHead | isEntry
  · simp only [List.mem_cons, List.not_mem_nil, or_false] at isHead
    rcases isHead with rfl | rfl | rfl
    · decide
    · exact OneLine.append (by decide) database.nameLine
    · decide
  · obtain ⟨entry, inEntries, inLines⟩ := List.mem_flatMap.mp isEntry
    exact oneLine_entryLines json (database.entryLine entry inEntries) line inLines

theorem mem_lines_of_headLines (texts : BannerTexts) :
    ∀ line ∈ texts.headLines, line ∈ texts.lines := by
  intro line member
  simp only [BannerTexts.headLines, BannerTexts.lines, List.mem_cons, List.not_mem_nil,
    or_false] at member ⊢
  grind

theorem textLines_dumpDatabases (banner : Banner) (databases : List (SourceDatabase Doc)) :
    textLines (dumpDatabases json banner databases) =
      banner.headLines ++ databases.flatMap (databaseLines json) := by
  rw [dumpDatabases, dumpEach_eq, ← joinLines_append]
  apply textLines_joinLines
  intro line member
  rcases List.mem_append.mp member with inHead | inDatabases
  · exact banner.oneLine line (mem_lines_of_headLines _ line inHead)
  · obtain ⟨database, -, inDatabase⟩ := List.mem_flatMap.mp inDatabases
    exact oneLine_databaseLines json database line inDatabase

/-! ### No insert stays open -/

structure ReadState.Closed (state : ReadState Doc) : Prop where
  inInsert : state.inInsert = false
  docs : state.docs = []

/-- The same state, or two between inserts: the name of the last collection is not used again. -/
def Alike (state other : ReadState Doc) : Prop := state = other ∨ state.Closed ∧ other.Closed

/-- Two lines' outcomes with the same call and alike states. -/
def AlikeOutcomes (one other : Except String (ReadState Doc × Option (Call Doc))) : Prop :=
  (∃ message, one = .error message) ∧ (∃ message, other = .error message) ∨
    ∃ next otherNext call, one = .ok (next, call) ∧ other = .ok (otherNext, call) ∧
      Alike next otherNext

theorem alikeOutcomes_command {state other : ReadState Doc} (alike : Alike state other)
    (command : Except String (Option (Command Doc))) :
    AlikeOutcomes (command.map fun command => (state, command.map .runCommand))
      (command.map fun command => (other, command.map .runCommand)) := by
  cases command with
  | error message => exact .inl ⟨⟨message, rfl⟩, message, rfl⟩
  | ok command => exact .inr ⟨state, other, _, rfl, rfl, alike⟩

theorem alikeOutcomes_readLine {state other : ReadState Doc}
    (alike : Alike state other) (text : String) :
    AlikeOutcomes (readLine json state text) (readLine json other text) := by
  rcases alike with rfl | ⟨closed, otherClosed⟩
  · cases readLine json state text with
    | error message => exact .inl ⟨⟨message, rfl⟩, message, rfl⟩
    | ok result => exact .inr ⟨result.1, result.1, result.2, rfl, rfl, .inl rfl⟩
  have alike : Alike state other := .inr ⟨closed, otherClosed⟩
  simp only [readLine, closed.inInsert, otherClosed.inInsert, Bool.false_eq_true, ↓reduceIte]
  split
  · exact .inr ⟨state, other, none, rfl, rfl, alike⟩
  split
  · exact alikeOutcomes_command alike _
  split
  · exact alikeOutcomes_command alike _
  split
  · exact alikeOutcomes_command alike _
  split
  · exact .inr ⟨_, _, none, rfl, rfl, .inl rfl⟩
  · exact .inr ⟨state, other, none, rfl, rfl, alike⟩

theorem readLines_alike {state other : ReadState Doc} (alike : Alike state other)
    (lines : List String) :
    (readLines json state lines).1 = (readLines json other lines).1 ∧
      (readLines json state lines).2.isSome = (readLines json other lines).2.isSome := by
  induction lines generalizing state other with
  | nil => exact ⟨rfl, rfl⟩
  | cons line rest ih =>
    by_cases fits : line.utf8ByteSize < mongoMaxLineBytes
    · rcases alikeOutcomes_readLine json alike line with
        ⟨⟨message, failed⟩, otherMessage, otherFailed⟩ |
        ⟨next, otherNext, call, read, otherRead, nextAlike⟩
      · rw [readLines_cons_of_error failed, readLines_cons_of_error otherFailed]
        exact ⟨rfl, rfl⟩
      · rw [readLines_cons_of_ok fits read, readLines_cons_of_ok fits otherRead]
        obtain ⟨calls, ending⟩ := ih nextAlike
        exact ⟨by rw [calls], ending⟩
    · rw [readLines_cons_of_long state fits, readLines_cons_of_long other fits]
      exact ⟨rfl, rfl⟩

/-- The states a list of lines can end in. -/
def EndsClosed (json : ExtJSON Doc) (lines : List String) : Prop :=
  ∀ state next calls, state.Closed → readLines json state lines = (calls, some next) → next.Closed

theorem EndsClosed.append {json : ExtJSON Doc} {first second : List String}
    (firstEnds : EndsClosed json first) (secondEnds : EndsClosed json second) :
    EndsClosed json (first ++ second) := by
  intro state next calls closed read
  cases firstRead : readLines json state first with
  | mk firstCalls ending =>
    cases ending with
    | none =>
      rw [readLines_append_of_none firstRead] at read
      exact absurd (Prod.mk.inj read).2 (by simp)
    | some middle =>
      rw [readLines_append_of_some firstRead] at read
      exact secondEnds _ _ _ (firstEnds _ _ _ closed firstRead)
        (Prod.ext rfl (Prod.mk.inj read).2 : readLines json middle second = (_, some next))

theorem endsClosed_flatMap {α : Type} {json : ExtJSON Doc} {lines : α → List String} (items : List α)
    (each : ∀ item ∈ items, EndsClosed json (lines item)) :
    EndsClosed json (items.flatMap lines) := by
  induction items with
  | nil =>
    intro state next calls closed read
    exact Option.some.inj (Prod.mk.inj read).2 ▸ closed
  | cons item rest ih =>
    obtain ⟨itemEnds, restEach⟩ := List.forall_mem_cons.mp each
    rw [List.flatMap_cons]
    exact itemEnds.append (ih restEach)

variable {line : String}

/-- A line that does not change the state. -/
theorem endsClosed_of_kept {json : ExtJSON Doc} (kept : ∀ {state next call}, state.Closed →
      readLine json state line = .ok (next, call) → next.Closed) :
    EndsClosed json [line] := by
  intro state next calls closed read
  by_cases fits : line.utf8ByteSize < mongoMaxLineBytes
  · cases stepped : readLine json state line with
    | error message =>
      rw [readLines_cons_of_error stepped] at read
      exact absurd (Prod.mk.inj read).2 (by simp)
    | ok result =>
      rw [readLines_cons_of_ok fits stepped] at read
      exact Option.some.inj (Prod.mk.inj read).2 ▸ kept closed stepped
  · rw [readLines_cons_of_long state fits] at read
    exact absurd (Prod.mk.inj read).2 (by simp)

theorem endsClosed_comment {json : ExtJSON Doc} (comment : IsComment line) :
    EndsClosed json [line] := by
  refine endsClosed_of_kept fun {state next call} closed read => ?_
  rw [readLine_of_isComment json state comment] at read
  exact (Prod.mk.inj (Except.ok.inj read)).1 ▸ closed

/-- A line with one of the statements that are looked for before `.insertMany([`. -/
def isStatement (line : String) : Bool :=
  contains line ".createCollection(" || contains line ".createView(" ||
    contains line ".createIndexes(["

theorem state_of_command {state next : ReadState Doc} {call : Option (Call Doc)}
    {command : Except String (Option (Command Doc))}
    (done : (command.map fun command => (state, command.map Call.runCommand)) = .ok (next, call)) :
    next = state := by
  cases command with
  | error message => exact nomatch done
  | ok command => exact (Prod.mk.inj (Except.ok.inj done)).1.symm

theorem endsClosed_statement {json : ExtJSON Doc} (firm : Firm line)
    (isDb : hasPrefix line "db." = true) (statement : isStatement line = true) :
    EndsClosed json [line] := by
  refine endsClosed_of_kept fun {state next call} closed read => ?_
  have kept : next = state := by
    unfold readLine at read
    rw [trimSpace_of_firm firm] at read
    simp only [if_neg (not_comment_of_db isDb), isDb, Bool.true_and] at read
    by_cases isCollection : contains line ".createCollection(" = true
    · rw [if_pos isCollection] at read
      exact state_of_command read
    rw [if_neg isCollection] at read
    by_cases isView : contains line ".createView(" = true
    · rw [if_pos isView] at read
      exact state_of_command read
    rw [if_neg isView] at read
    have isIndexes : contains line ".createIndexes([" = true := by
      simpa [isStatement, isCollection, isView] using statement
    rw [if_pos isIndexes] at read
    exact state_of_command read
  exact kept ▸ closed

theorem endsClosed_optionsLine (name : String) (options : Doc) :
    EndsClosed json [optionsLine json name options] := by
  have shape : optionsLine json name options =
      "db." ++ (name ++ ".createCollection(" ++ json.marshal options) ++ ")" := by
    simp only [optionsLine, String.append_assoc]
  have marked : optionsLine json name options =
      "db." ++ name ++ ".createCollection(" ++ (json.marshal options ++ ")") := by
    simp only [optionsLine, String.append_assoc]
  refine endsClosed_statement ?_ ?_ ?_
  · rw [shape]
    exact Firm.append (by decide) (by decide)
  · rw [shape, String.append_assoc]
    exact hasPrefix_append _ _
  · have isCollection : contains (optionsLine json name options) ".createCollection(" = true := by
      rw [marked]
      exact contains_append _ _ _
    simp [isStatement, isCollection]

theorem endsClosed_viewLine (name : String) (spec : Doc) :
    EndsClosed json [viewLine json name spec] := by
  have shape : viewLine json name spec =
      "db." ++ (name ++ ".createView(" ++ json.marshal spec) ++ ")" := by
    simp only [viewLine, String.append_assoc]
  have marked : viewLine json name spec =
      "db." ++ name ++ ".createView(" ++ (json.marshal spec ++ ")") := by
    simp only [viewLine, String.append_assoc]
  refine endsClosed_statement ?_ ?_ ?_
  · rw [shape]
    exact Firm.append (by decide) (by decide)
  · rw [shape, String.append_assoc]
    exact hasPrefix_append _ _
  · have isView : contains (viewLine json name spec) ".createView(" = true := by
      rw [marked]
      exact contains_append _ _ _
    simp [isStatement, isView]

theorem endsClosed_indexesLine (name : String) (specs : List Doc) :
    EndsClosed json [indexesLine json name specs] := by
  refine endsClosed_statement (firm_indexesLine json name specs)
    (hasPrefix_indexesLine json name specs) ?_
  have isIndexes : contains (indexesLine json name specs) ".createIndexes([" = true := by
    rw [indexesLine, String.append_assoc]
    exact contains_append _ _ _
  simp [isStatement, isIndexes]

/-- Whatever the lines before it did, the closing line leaves no insert open. -/
theorem closed_of_close {json : ExtJSON Doc} {state next : ReadState Doc} {calls : List (Call Doc)}
    (between : state.inInsert = false → state.docs = [])
    (read : readLines json state ["]);", ""] = (calls, some next)) : next.Closed := by
  cases inside : state.inInsert with
  | true =>
    rw [readLines_close json inside] at read
    exact Option.some.inj (Prod.mk.inj read).2 ▸ ⟨rfl, rfl⟩
  | false =>
    have closed : state.Closed := ⟨inside, between inside⟩
    have skipped : readLine json state "]);" = .ok (state, none) := by
      have trimmed : trimSpace "]);" = "]);" := by decide
      have noComment : ¬ ("]);" = "" ∨ hasPrefix "]);" "//" = true) := by decide
      have noStatement : hasPrefix "]);" "db." = false := by decide
      unfold readLine
      simp only [trimmed, if_neg noComment, noStatement, inside, Bool.false_and,
        Bool.false_eq_true, if_false]
    rw [readLines_cons_of_ok fits_short.2 skipped,
      readLines_cons_of_ok fits_short.1 (readLine_of_isComment json _ isComment_empty)] at read
    exact Option.some.inj (Prod.mk.inj read).2 ▸ closed

/-- Documents are only kept inside an insert. -/
def ReadState.Tidy (state : ReadState Doc) : Prop := state.inInsert = false → state.docs = []

theorem tidy_readLine {json : ExtJSON Doc} {state next : ReadState Doc} {text : String}
    {call : Option (Call Doc)} (tidy : state.Tidy) (read : readLine json state text = .ok (next, call)) :
    next.Tidy := by
  unfold readLine at read
  simp only at read
  split at read
  · exact (Prod.mk.inj (Except.ok.inj read)).1 ▸ tidy
  split at read
  · exact state_of_command read ▸ tidy
  split at read
  · exact state_of_command read ▸ tidy
  split at read
  · exact state_of_command read ▸ tidy
  split at read
  · exact (Prod.mk.inj (Except.ok.inj read)).1 ▸ fun _ => rfl
  split at read
  · rename_i inside
    split at read
    · exact (Prod.mk.inj (Except.ok.inj read)).1 ▸ fun _ => rfl
    · split at read
      · exact nomatch read
      · exact (Prod.mk.inj (Except.ok.inj read)).1 ▸ tidy
      · unfold addToBatch at read
        simp only at read
        split at read
        · exact (Prod.mk.inj (Except.ok.inj read)).1 ▸ fun _ => rfl
        · refine (Prod.mk.inj (Except.ok.inj read)).1 ▸ fun outside => ?_
          exact absurd (inside.symm.trans outside) (by decide)
  · exact (Prod.mk.inj (Except.ok.inj read)).1 ▸ tidy

theorem tidy_readLines {json : ExtJSON Doc} {state next : ReadState Doc} {lines : List String}
    {calls : List (Call Doc)} (tidy : state.Tidy)
    (read : readLines json state lines = (calls, some next)) : next.Tidy := by
  induction lines generalizing state calls with
  | nil => exact Option.some.inj (Prod.mk.inj read).2 ▸ tidy
  | cons line rest ih =>
    by_cases fits : line.utf8ByteSize < mongoMaxLineBytes
    · cases stepped : readLine json state line with
      | error message =>
        rw [readLines_cons_of_error stepped] at read
        exact absurd (Prod.mk.inj read).2 (by simp)
      | ok result =>
        rw [readLines_cons_of_ok fits stepped] at read
        exact ih (tidy_readLine tidy stepped)
          (Prod.ext rfl (Prod.mk.inj read).2 : readLines json result.1 rest = (_, some next))
    · rw [readLines_cons_of_long state fits] at read
      exact absurd (Prod.mk.inj read).2 (by simp)

theorem endsClosed_insertBlock (col : Collection Doc) : EndsClosed json (insertBlock json col) := by
  intro state next calls closed read
  unfold insertBlock at read
  split at read
  · exact Option.some.inj (Prod.mk.inj read).2 ▸ closed
  · rw [← List.cons_append] at read
    cases firstRead : readLines json state (insertManyLine col.name :: docLines json col.docs) with
    | mk firstCalls ending =>
      cases ending with
      | none =>
        rw [readLines_append_of_none firstRead] at read
        exact absurd (Prod.mk.inj read).2 (by simp)
      | some middle =>
        rw [readLines_append_of_some firstRead] at read
        have tidy : middle.Tidy := tidy_readLines (fun _ => closed.docs) firstRead
        exact closed_of_close tidy (Prod.ext rfl (Prod.mk.inj read).2)

theorem endsClosed_nil : EndsClosed json [] := by
  intro state next calls closed read
  exact Option.some.inj (Prod.mk.inj read).2 ▸ closed

theorem endsClosed_collectionLines (col : Collection Doc) :
    EndsClosed json (collectionLines json col) := by
  have indexes : EndsClosed json (indexBlock json col) := by
    unfold indexBlock
    split
    · exact endsClosed_nil json
    · exact (endsClosed_indexesLine json col.name col.specs).append
        (endsClosed_comment isComment_empty)
  have comment : EndsClosed json [commentLine col.name] :=
    endsClosed_comment (isComment_commentLine col.name)
  exact comment.append ((endsClosed_insertBlock json col).append indexes)

theorem endsClosed_entryLines (entry : Entry Doc) : EndsClosed json (entryLines json entry) := by
  cases entry with
  | collection options col =>
    have optionsEnd : EndsClosed json (options.map (optionsLine json col.name)).toList := by
      cases options with
      | none => exact endsClosed_nil json
      | some spec => exact endsClosed_optionsLine json col.name spec
    exact optionsEnd.append (endsClosed_collectionLines json col)
  | view name spec =>
    have comment : EndsClosed json ["// View: " ++ name] :=
      endsClosed_comment (isComment_labelled " View: " name)
    exact comment.append ((endsClosed_viewLine json name spec).append
      (endsClosed_comment isComment_empty))

theorem endsClosed_databaseLines (database : SourceDatabase Doc) :
    EndsClosed json (databaseLines json database) := by
  have head : EndsClosed json ["", "// Database: " ++ database.name, ""] :=
    (endsClosed_comment isComment_empty).append
      ((endsClosed_comment (isComment_labelled " Database: " database.name)).append
        (endsClosed_comment isComment_empty))
  exact head.append (endsClosed_flatMap _ fun entry _ => endsClosed_entryLines json entry)

/-! ### Where the calls come from -/

/-- `readLines` with the mark of the line each call was made at. -/
def readMarked {ι : Type} (json : ExtJSON Doc) :
    ReadState Doc → List (ι × String) → List (ι × Call Doc)
  | _, [] => []
  | state, (mark, line) :: rest =>
    if mongoMaxLineBytes ≤ line.utf8ByteSize then []
    else
      match readLine json state line with
      | .error _ => []
      | .ok (next, call) => call.toList.map (mark, ·) ++ readMarked json next rest

theorem readMarked_same {ι : Type} (state : ReadState Doc) (mark : ι)
    (lines : List String) (rest : List (ι × String)) :
    readMarked json state (lines.map (mark, ·) ++ rest) =
      (readLines json state lines).1.map (mark, ·) ++
        match (readLines json state lines).2 with
        | none => []
        | some next => readMarked json next rest := by
  induction lines generalizing state with
  | nil => rfl
  | cons line others ih =>
    rw [List.map_cons, List.cons_append, readMarked, readLines]
    split
    · rfl
    · cases readLine json state line with
      | error message => rfl
      | ok result =>
        simp only [ih, List.map_append, List.append_assoc]

/-- The lines of a dump, with the number of the database each belongs to. -/
def markedLines (json : ExtJSON Doc) (banner : Banner) (databases : List (SourceDatabase Doc)) :
    List (Option Nat × String) :=
  banner.headLines.map (none, ·) ++ numbered 0 (databases.map (databaseLines json))

/-- The calls `Restore` makes for a dump, with the databases they come from. -/
def restoredFrom (json : ExtJSON Doc) (banner : Banner) (databases : List (SourceDatabase Doc)) :
    List (Option Nat × Call Doc) :=
  readMarked json {} (markedLines json banner databases)

/-- Something of the database is written when its part of the dump is read alone. -/
def HasObjects (json : ExtJSON Doc) (database : SourceDatabase Doc) : Prop :=
  (readLines json {} (databaseLines json database)).1 ≠ []

/-- The database's part of the dump has a line that ends the restore. -/
def EndsRestore (json : ExtJSON Doc) (database : SourceDatabase Doc) : Prop :=
  (readLines json {} (databaseLines json database)).2 = none

/-- The database with the number has objects, and no database before it ends the restore. -/
def Restored (json : ExtJSON Doc) (databases : List (SourceDatabase Doc)) (number : Nat) : Prop :=
  ∃ before database after, databases = before ++ database :: after ∧ before.length = number ∧
    HasObjects json database ∧ ∀ earlier ∈ before, ¬ EndsRestore json earlier

theorem restored_zero_iff (database : SourceDatabase Doc) (rest : List (SourceDatabase Doc)) :
    Restored json (database :: rest) 0 ↔ HasObjects json database := by
  constructor
  · rintro ⟨before, other, after, parts, length, objects, -⟩
    obtain rfl := List.length_eq_zero_iff.mp length
    exact (List.cons.inj parts).1 ▸ objects
  · intro objects
    exact ⟨[], database, rest, rfl, rfl, objects, fun _ member => absurd member List.not_mem_nil⟩

theorem restored_succ_iff (database : SourceDatabase Doc)
    (rest : List (SourceDatabase Doc)) (number : Nat) :
    Restored json (database :: rest) (number + 1) ↔
      ¬ EndsRestore json database ∧ Restored json rest number := by
  constructor
  · rintro ⟨before, other, after, parts, length, objects, goesOn⟩
    cases before with
    | nil => exact absurd length (by simp)
    | cons first before =>
      obtain ⟨rfl, restParts⟩ := List.cons.inj parts
      obtain ⟨firstGoesOn, restGoesOn⟩ := List.forall_mem_cons.mp goesOn
      exact ⟨firstGoesOn, before, other, after, restParts, Nat.succ.inj length, objects, restGoesOn⟩
  · rintro ⟨goesOn, before, other, after, rfl, rfl, objects, restGoesOn⟩
    exact ⟨database :: before, other, after, rfl, rfl, objects,
      List.forall_mem_cons.mpr ⟨goesOn, restGoesOn⟩⟩

theorem numbers_from {state : ReadState Doc} (closed : state.Closed)
    (first : Nat) (databases : List (SourceDatabase Doc)) (mark : Option Nat) :
    (∃ call, (mark, call) ∈ readMarked json state
        (numbered first (databases.map (databaseLines json)))) ↔
      ∃ number, mark = some (first + number) ∧ Restored json databases number := by
  induction databases generalizing state first with
  | nil =>
    constructor
    · rintro ⟨call, member⟩
      exact absurd member List.not_mem_nil
    · rintro ⟨number, -, before, database, after, parts, -⟩
      exact absurd parts (by simp)
  | cons database rest ih =>
    have startClosed : ({} : ReadState Doc).Closed := ⟨rfl, rfl⟩
    obtain ⟨calls, ending⟩ := readLines_alike json
      (.inr ⟨closed, startClosed⟩ : Alike state {}) (databaseLines json database)
    have own : (∃ call, (mark, call) ∈
        (readLines json state (databaseLines json database)).1.map (some first, ·)) ↔
        mark = some first ∧ HasObjects json database := by
      rw [calls]
      constructor
      · rintro ⟨call, member⟩
        obtain ⟨other, inCalls, same⟩ := List.mem_map.mp member
        exact ⟨(Prod.mk.inj same).1.symm, List.ne_nil_of_mem inCalls⟩
      · rintro ⟨rfl, objects⟩
        obtain ⟨call, inCalls⟩ := List.exists_mem_of_ne_nil _ objects
        exact ⟨call, List.mem_map_of_mem inCalls⟩
    have later : (∃ call, (mark, call) ∈
        (match (readLines json state (databaseLines json database)).2 with
          | none => []
          | some next => readMarked json next
              (numbered (first + 1) (rest.map (databaseLines json))))) ↔
        ¬ EndsRestore json database ∧
          ∃ number, mark = some (first + 1 + number) ∧ Restored json rest number := by
      cases read : (readLines json state (databaseLines json database)).2 with
      | none =>
        have ends : EndsRestore json database := by
          rw [EndsRestore, ← Option.not_isSome_iff_eq_none, ← ending, read]
          exact Bool.false_ne_true
        simp [ends]
      | some next =>
        have goesOn : ¬ EndsRestore json database := by
          rw [EndsRestore, ← Option.not_isSome_iff_eq_none, ← ending, read]
          exact not_not_intro rfl
        have nextClosed : next.Closed := endsClosed_databaseLines json database state next _
          closed (Prod.ext rfl read)
        rw [ih nextClosed]
        simp [goesOn]
    rw [List.map_cons, numbered, readMarked_same]
    simp only [List.mem_append, exists_or, own, later]
    constructor
    · rintro (⟨rfl, objects⟩ | ⟨goesOn, number, rfl, restored⟩)
      · exact ⟨0, rfl, (restored_zero_iff json database rest).mpr objects⟩
      · exact ⟨number + 1, by rw [Nat.add_assoc, Nat.add_comm 1],
          (restored_succ_iff json database rest number).mpr ⟨goesOn, restored⟩⟩
    · rintro ⟨number, rfl, restored⟩
      cases number with
      | zero => exact .inl ⟨rfl, (restored_zero_iff json database rest).mp restored⟩
      | succ number =>
        obtain ⟨goesOn, restRestored⟩ := (restored_succ_iff json database rest number).mp restored
        exact .inr ⟨goesOn, number, by rw [Nat.add_assoc, Nat.add_comm 1], restRestored⟩

/-- The databases something is written from. -/
theorem exists_call_iff (banner : Banner)
    (databases : List (SourceDatabase Doc)) (mark : Option Nat) :
    (∃ call, (mark, call) ∈ restoredFrom json banner databases) ↔
      ∃ number, mark = some number ∧ Restored json databases number := by
  have startClosed : ({} : ReadState Doc).Closed := ⟨rfl, rfl⟩
  have head : readLines json {} banner.headLines = ([], some {}) :=
    readLines_comments json {}
      (fun line member => isComment_banner banner line (mem_lines_of_headLines _ line member))
      fun line member => banner.fits line (mem_lines_of_headLines _ line member)
  rw [restoredFrom, markedLines, readMarked_same, head]
  simp only [List.map_nil, List.nil_append]
  rw [numbers_from json startClosed]
  simp only [Nat.zero_add]

end DbBackup.Engine.Mongo
