import DbBackup.Lib.Picked
import DbBackup.Lib.Scan
import Mathlib.Data.List.Nodup

/-!
Owns the incremental dump of a MySQL server
(`supported/database/engine/mysql/incremental.go`) and the binary logs it reads.

A log holds the statements clients ran, each with the database it was run in and
the databases it changed, and events of other kinds; what the server shows of
them is a type and a text. The positions of a file have four bytes.

Contract: exactly when the dump of one database writes the statements that
changed it, and no others (`onlyOwnChanges_iff`).

Does not own the full dump that stands in for an increment, nor connections; the
logs are those after `FLUSH LOGS`.
-/

set_option linter.all false

namespace DbBackup.Engine.Mysql

open Lib.GoString Lib.Picked Lib.Scan

/-! ### The binary log -/

/-- A statement with the database it was run in, empty without one, or an event
of another kind. -/
inductive Content where
  | query (current text : String) (suppressUse : Bool)
  | other (type info : String) (notQuery : type ≠ "Query")
deriving DecidableEq

/-- An event at its offset, and the databases it changed. -/
structure Entry where
  pos : Nat
  content : Content
  changes : List String
deriving DecidableEq

structure BinlogEvent where
  logPos : Nat
  event : String
  info : String
deriving DecidableEq

def Content.type : Content → String
  | .query _ _ _ => "Query"
  | .other type _ _ => type

/-- The server shows the database before a statement, unless the statement names
it. -/
def Content.info : Content → String
  | .query current text suppressUse =>
    if current = "" ∨ suppressUse then text
    else "use `" ++ replaceAll current "`" "``" ++ "`; " ++ text
  | .other _ info _ => info

def Entry.event (entry : Entry) : BinlogEvent :=
  { logPos := entry.pos, event := entry.content.type, info := entry.content.info }

structure LogFile where
  name : String
  entries : List Entry
  size : Nat
  noColon : ':' ∉ name.toList
  fits : size < 2 ^ 32

/-- An offset the server reads from: the start, an event or the end. -/
def LogFile.isBoundary (file : LogFile) (offset : Nat) : Bool :=
  offset = 0 || offset = file.size || file.entries.any fun entry => entry.pos = offset

/-- `SHOW BINARY LOGS`, oldest first. -/
structure Server where
  logs : List LogFile
  distinct : (logs.map LogFile.name).Nodup

/-- A position in the logs. -/
structure Position (server : Server) where
  earlier : List LogFile
  file : LogFile
  later : List LogFile
  offset : Nat
  inLogs : server.logs = earlier ++ file :: later
  inFile : offset ≤ file.size ∧ file.isBoundary offset = true

/-- The form `Position` gives it. -/
def Position.text {server : Server} (since : Position server) : String :=
  since.file.name ++ ":" ++ toString since.offset

def LogFile.entriesFrom (file : LogFile) (offset : Nat) : List Entry :=
  file.entries.filter fun entry => offset ≤ entry.pos

/-- What was logged after a position. -/
def Position.after {server : Server} (since : Position server) : List Entry :=
  since.file.entriesFrom since.offset ++ since.later.flatMap LogFile.entries

/-! ### The dump -/

/-- `SHOW BINLOG EVENTS IN file FROM fromPos`. -/
def Server.binlogEventsIn (server : Server) (file : String) (fromPos : Nat) :
    Except String (List BinlogEvent) :=
  match server.logs.find? fun log => log.name = file with
  | none => .error "Could not find target log"
  | some log =>
    if log.isBoundary fromPos then .ok ((log.entriesFrom fromPos).map Entry.event)
    else .error "Wrong offset or I/O error"

/-- What the dump writes: a comment, a statement with a semicolon behind it, or
a full dump. -/
inductive Piece where
  | comment (text : String)
  | statement (event : BinlogEvent)
  | fullDump (databases : List String)
deriving DecidableEq

/-- The events the dump writes. -/
def BinlogEvent.isWritten (event : BinlogEvent) : Bool :=
  event.event = "Query" && event.info ≠ "" &&
    !(contains event.info "FLUSH LOGS" || hasPrefix event.info "BEGIN")

def fallback (dbName note : String) : List Piece :=
  [.comment note, .fullDump ((dbName.toList.splitOn ',').map String.ofList)]

/-- The loop over the files, and whether it came to its end. Only the first file
is read from an offset. -/
def Server.readFiles (server : Server) (dbName : String) :
    Option Nat → List String → List Piece × Bool
  | _, [] => ([], true)
  | start, file :: files =>
    match server.binlogEventsIn file (start.getD 0) with
    | .error err =>
      (fallback dbName ("-- binlog read failed (" ++ err ++ "), full dump fallback\n"), false)
    | .ok events =>
      let heading := if start.isSome then [] else [Piece.comment ("-- binlog " ++ file)]
      let (pieces, finished) := server.readFiles dbName none files
      (heading ++ (events.filter BinlogEvent.isWritten).map .statement ++ pieces, finished)

/-- `strconv.ParseUint(text, 10, 32)` without its error. -/
def parseUint32 (text : List Char) : Nat :=
  if text = [] ∨ text.all Char.isDigit = false then 0
  else min (digitsValue text) (2 ^ 32 - 1)

def isStatement : Piece → Bool
  | .statement _ => true
  | _ => false

def Server.incrementalDump (server : Server) (dbName strategy since : String) :
    Except String (List Piece) :=
  if since = "" then .ok [.fullDump ((dbName.toList.splitOn ',').map String.ofList)]
  else
    match indexOf [':'] since.toList with
    | none => .error ("invalid position: " ++ since)
    | some colon =>
      let startFile := String.ofList (since.toList.take colon)
      let startPos := parseUint32 (since.toList.drop (colon + 1))
      let label := if strategy = "differential" then "differential" else "incremental"
      let opening := Piece.comment ("-- MySQL " ++ label ++ " from " ++ since)
      let files := (server.logs.map LogFile.name).dropWhile (· ≠ startFile)
      if files = [] then
        .ok (opening :: fallback dbName
          ("-- binlog " ++ startFile ++ " no longer available, full dump fallback\n"))
      else
        let (pieces, finished) := server.readFiles dbName (some startPos) files
        if finished && !pieces.any isStatement then
          .ok (opening :: pieces ++ [.comment ("-- No new events since " ++ since)])
        else .ok (opening :: pieces)

/-- The statements of a dump. -/
def statements (pieces : List Piece) : List BinlogEvent :=
  pieces.filterMap fun piece => match piece with
    | .statement event => some event
    | _ => none

def Entry.changed (database : String) (entry : Entry) : Bool := entry.changes.contains database

/-- The dump of a database is no full dump, and its statements are those that
changed the database after `since`. -/
def OnlyOwnChanges (server : Server) (database strategy : String) (since : Position server) : Prop :=
  ∃ pieces, server.incrementalDump database strategy since.text = .ok pieces ∧
    (∀ databases, .fullDump databases ∉ pieces) ∧
    statements pieces = (since.after.filter (Entry.changed database)).map Entry.event

def Entry.isStatement (entry : Entry) : Bool :=
  entry.content.type = "Query" && entry.content.info ≠ ""

def Entry.isPassedOver (entry : Entry) : Bool :=
  contains entry.content.info "FLUSH LOGS" || hasPrefix entry.content.info "BEGIN"

/-- Every change of the database was logged as a statement the dump does not
pass over, and every other statement is one that it does. -/
structure LoggedAlone (database : String) (entries : List Entry) : Prop where
  own : ∀ entry ∈ entries, entry.changed database = true →
    entry.isStatement = true ∧ entry.isPassedOver = false
  others : ∀ entry ∈ entries, entry.changed database = false → entry.isStatement = true →
    entry.isPassedOver = true

/-! ### What is read -/

theorem LogFile.entriesFrom_zero (file : LogFile) : file.entriesFrom 0 = file.entries := by
  simp [LogFile.entriesFrom]

variable (server : Server)

theorem Server.find_of_mem {log : LogFile} (member : log ∈ server.logs) :
    server.logs.find? (fun other => other.name = log.name) = some log := by
  cases found : server.logs.find? (fun other => other.name = log.name) with
  | none =>
    have missing := List.find?_eq_none.mp found log member
    simp at missing
  | some other =>
    have sameName : other.name = log.name := by simpa using List.find?_some found
    have same := List.inj_on_of_nodup_map server.distinct (List.mem_of_find?_eq_some found) member
      sameName
    rw [same]

theorem Server.binlogEventsIn_of_mem {log : LogFile}
    (member : log ∈ server.logs) {offset : Nat} (boundary : log.isBoundary offset = true) :
    server.binlogEventsIn log.name offset = .ok ((log.entriesFrom offset).map Entry.event) := by
  unfold Server.binlogEventsIn
  rw [server.find_of_mem member]
  dsimp only
  rw [if_pos boundary]

@[simp] theorem statements_append (first second : List Piece) :
    statements (first ++ second) = statements first ++ statements second :=
  List.filterMap_append

@[simp] theorem statements_map (events : List BinlogEvent) :
    statements (events.map .statement) = events := by
  simp [statements, List.filterMap_map]

/-- The dump is an increment with these statements. -/
def Increment (pieces : List Piece) (events : List BinlogEvent) : Prop :=
  (∀ databases, .fullDump databases ∉ pieces) ∧ statements pieces = events

theorem Increment.append {first second : List Piece} {events more : List BinlogEvent}
    (before : Increment first events) (after : Increment second more) :
    Increment (first ++ second) (events ++ more) := by
  refine ⟨fun databases member => ?_, by rw [statements_append, before.2, after.2]⟩
  rcases List.mem_append.mp member with inFirst | inSecond
  · exact before.1 databases inFirst
  · exact after.1 databases inSecond

theorem increment_comment (text : String) : Increment [.comment text] [] := by
  simp [Increment, statements]

theorem increment_statements (events : List BinlogEvent) :
    Increment (events.map .statement) events := by
  refine ⟨fun databases member => ?_, statements_map events⟩
  obtain ⟨event, -, same⟩ := List.mem_map.mp member
  cases same

def writtenEvents (entries : List Entry) : List BinlogEvent :=
  (entries.map Entry.event).filter BinlogEvent.isWritten

theorem writtenEvents_append (first second : List Entry) :
    writtenEvents (first ++ second) = writtenEvents first ++ writtenEvents second := by
  simp [writtenEvents]

/-- Files after the first one are read whole. -/
theorem readFiles_rest (dbName : String) {files : List LogFile}
    (listed : ∀ log ∈ files, log ∈ server.logs) :
    Increment (server.readFiles dbName none (files.map LogFile.name)).1
        (writtenEvents (files.flatMap LogFile.entries)) ∧
      (server.readFiles dbName none (files.map LogFile.name)).2 = true := by
  induction files with
  | nil => exact ⟨⟨by simp [Server.readFiles], rfl⟩, rfl⟩
  | cons log files ih =>
    have rest := ih (List.forall_mem_cons.mp listed).2
    have start : log.isBoundary 0 = true := by simp [LogFile.isBoundary]
    have read := server.binlogEventsIn_of_mem (listed log List.mem_cons_self) start
    rw [log.entriesFrom_zero] at read
    rw [List.map_cons, List.flatMap_cons, writtenEvents_append]
    unfold Server.readFiles
    rw [Option.getD_none, read]
    exact ⟨((increment_comment _).append (increment_statements _)).append rest.1, rest.2⟩

theorem readFiles_first (dbName : String) (since : Position server) :
    Increment (server.readFiles dbName (some since.offset)
        ((since.file :: since.later).map LogFile.name)).1 (writtenEvents since.after) := by
  have listed : ∀ log ∈ since.later, log ∈ server.logs := by
    intro log member
    rw [since.inLogs]
    simp [member]
  have member : since.file ∈ server.logs := by
    rw [since.inLogs]
    simp
  have read := server.binlogEventsIn_of_mem member since.inFile.2
  rw [List.map_cons]
  unfold Server.readFiles Position.after
  rw [Option.getD_some, read, writtenEvents_append]
  exact (increment_statements _).append (readFiles_rest server dbName listed).1

/-! ### The position -/

theorem parseUint32_toDigits {n : Nat} (fits : n < 2 ^ 32) :
    parseUint32 (Nat.toDigits 10 n) = n := by
  have digits : (Nat.toDigits 10 n).all Char.isDigit = true :=
    List.all_eq_true.mpr (isDigit_toDigits n)
  unfold parseUint32
  rw [if_neg, digitsValue_toDigits]
  · omega
  · rw [not_or]
    exact ⟨Nat.toDigits_ne_nil, by rw [digits]; simp⟩

theorem Position.text_toList {server : Server} (since : Position server) :
    since.text.toList = since.file.name.toList ++ ':' :: Nat.toDigits 10 since.offset := by
  simp [Position.text, Nat.toList_repr]

theorem Position.indexOf_colon {server : Server} (since : Position server) :
    indexOf [':'] since.text.toList = some since.file.name.toList.length := by
  rw [since.text_toList, indexOf_append_of_not_mem since.file.noColon]
  simp [indexOf]

/-- The files from the start file on. -/
theorem Position.files {server : Server} (since : Position server) :
    (server.logs.map LogFile.name).dropWhile (· ≠ since.file.name) =
      (since.file :: since.later).map LogFile.name := by
  have distinct := server.distinct
  rw [since.inLogs, List.map_append, List.nodup_append] at distinct
  rw [since.inLogs, List.map_append, List.dropWhile_append_of_pos]
  · simp
  · intro name member
    simpa using distinct.2.2 name member since.file.name (by simp)

/-- From a position in the logs the dump is an increment. -/
theorem incrementalDump_eq (database strategy : String) (since : Position server) :
    ∃ pieces, server.incrementalDump database strategy since.text = .ok pieces ∧
      Increment pieces (writtenEvents since.after) := by
  have notEmpty : since.text ≠ "" := by
    intro empty
    have chars := since.text_toList
    rw [empty] at chars
    simp at chars
  have start : String.ofList (since.text.toList.take since.file.name.toList.length) =
      since.file.name := by
    rw [since.text_toList, List.take_left, String.ofList_toList]
  have offset : parseUint32 (since.text.toList.drop (since.file.name.toList.length + 1)) =
      since.offset := by
    rw [since.text_toList, ← List.drop_drop, List.drop_left, List.drop_one, List.tail_cons]
    have fits := since.file.fits
    have inFile := since.inFile.1
    exact parseUint32_toDigits (by omega)
  have read := readFiles_first server database since
  unfold Server.incrementalDump
  rw [if_neg notEmpty, since.indexOf_colon]
  dsimp only
  rw [start, offset, since.files, if_neg (by simp)]
  split
  · refine ⟨_, rfl, ?_⟩
    rw [← List.append_nil (writtenEvents since.after)]
    exact ((increment_comment _).append read).append (increment_comment _)
  · exact ⟨_, rfl, (increment_comment _).append read⟩

/-! ### The changes of one database -/

theorem isWritten_event (entry : Entry) :
    entry.event.isWritten = (entry.isStatement && !entry.isPassedOver) := rfl

theorem loggedAlone_iff {database : String} {entries : List Entry} : LoggedAlone database entries ↔
      ∀ entry ∈ entries, entry.event.isWritten = entry.changed database := by
  constructor
  · intro alone entry member
    rw [isWritten_event]
    cases changed : entry.changed database with
    | true =>
      obtain ⟨isStatement, kept⟩ := alone.own entry member changed
      rw [isStatement, kept]
      rfl
    | false =>
      cases isStatement : entry.isStatement with
      | false => rfl
      | true =>
        rw [alone.others entry member changed isStatement]
        rfl
  · intro same
    refine ⟨fun entry member changed => ?_, fun entry member changed isStatement => ?_⟩
    · simpa [isWritten_event, changed] using same entry member
    · simpa [isWritten_event, changed, isStatement] using same entry member

/-- The dump holds the changes of the database and nothing else exactly where
the log after `since` does. -/
theorem onlyOwnChanges_iff (server : Server) (database strategy : String)
    (since : Position server) :
    OnlyOwnChanges server database strategy since ↔ LoggedAlone database since.after := by
  obtain ⟨pieces, dumped, increment⟩ := incrementalDump_eq server database strategy since
  have written : writtenEvents since.after =
      (since.after.filter fun entry => entry.event.isWritten).map Entry.event := by
    rw [writtenEvents, List.filter_map]
    rfl
  rw [loggedAlone_iff, ← map_filter_eq_iff Entry.event, ← written]
  constructor
  · rintro ⟨others, sameDump, -, same⟩
    rw [dumped, Except.ok.injEq] at sameDump
    rw [← increment.2, sameDump, same]
  · intro same
    exact ⟨pieces, dumped, increment.1, increment.2.trans same⟩

/-- Clients of two databases wrote to one log. -/
def twoClients : Server where
  logs := [{
    name := "binlog.000001"
    entries := [
      { pos := 157, content := .query "shop" "INSERT INTO items VALUES (1)" false,
        changes := ["shop"] },
      { pos := 310, content := .query "blog" "DELETE FROM items" false, changes := ["blog"] }]
    size := 462
    noColon := by decide
    fits := by decide }]
  distinct := by decide

def beforeBoth : Position twoClients where
  earlier := []
  file := twoClients.logs.head (by decide)
  later := []
  offset := 157
  inLogs := rfl
  inFile := by decide

/-- The statement of the other database is in the dump, and a restore runs it in
the target. -/
theorem other_database_dumped :
    (twoClients.incrementalDump "shop" "incremental" "binlog.000001:157").toOption.map statements =
        some [⟨157, "Query", "use `shop`; INSERT INTO items VALUES (1)"⟩,
          ⟨310, "Query", "use `blog`; DELETE FROM items"⟩] ∧
      ¬ OnlyOwnChanges twoClients "shop" "incremental" beforeBoth := by
  have dumped : (twoClients.incrementalDump "shop" "incremental" beforeBoth.text).toOption.map
      statements = some [⟨157, "Query", "use `shop`; INSERT INTO items VALUES (1)"⟩,
        ⟨310, "Query", "use `blog`; DELETE FROM items"⟩] := by
    decide +kernel
  refine ⟨dumped, ?_⟩
  rintro ⟨pieces, made, -, same⟩
  rw [made] at dumped
  have written := Option.some.inj dumped
  rw [same] at written
  exact absurd written (by decide +kernel)

end DbBackup.Engine.Mysql
