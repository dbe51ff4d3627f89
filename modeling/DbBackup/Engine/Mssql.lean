import DbBackup.Lib.LineScan

/-!
Owns the SQL Server engine's incremental side: `IncrementalDump` of
`supported/database/engine/mssql/incremental.go` and the `Restore` of
`internal/database/engine/mssql/ops.go` that reads its output back.

Contract: `IncrementalDump` backs the database up to the device `NUL` and writes
comments about it. Its output is a function of the strategy and the name of the
database, and restoring it executes one batch of comments.

The state of a database is an arbitrary type. A server is its answer to a
`BACKUP` statement and to a batch; of the batches only those of comments have a
known effect, which is none. `firstDB` is the database the engine connected to.
-/

set_option linter.all false

namespace DbBackup.Engine.Mssql

open Lib.GoString Lib.LineScan

/-- A batch of `--` comments and blank lines. -/
def CommentsOnly (batch : String) : Prop :=
  ∀ line ∈ textLines batch, trimSpace line = "" ∨ hasPrefix (trimSpace line) "--" = true

structure Server (State : Type) where
  backup : State → String → Bool
  exec : State → String → Except String State
  exec_comments : ∀ state batch, CommentsOnly batch → exec state batch = .ok state

variable {State : Type}

/-! ### Writing -/

def backupStmt (strategy firstDB : String) : String :=
  if strategy = "incremental" then
    "BACKUP LOG [" ++ firstDB ++ "] TO DISK='NUL' WITH FORMAT, COMPRESSION"
  else
    "BACKUP DATABASE [" ++ firstDB ++ "] TO DISK='NUL' WITH DIFFERENTIAL, FORMAT, COMPRESSION"

def dumpLines (strategy firstDB : String) : List String :=
  ["-- MSSQL " ++ strategy ++ " for " ++ firstDB,
    "-- " ++ backupStmt strategy firstDB,
    "",
    "-- Backup executed successfully",
    "-- WAL/LSN position recorded in sidecar"]

def incrementalDump (server : Server State) (strategy firstDB : String) (state : State) :
    Except String String :=
  if strategy ≠ "incremental" ∧ strategy ≠ "differential" then
    .error ("unsupported strategy: " ++ strategy)
  else if server.backup state (backupStmt strategy firstDB) then
    .ok (joinLines (dumpLines strategy firstDB))
  else .error "backup"

/-! ### Reading -/

def isGOSeparator (line : String) : Bool := toLower (trimSpace line) = "go"

def markerSourceDB (line : String) : Option String :=
  let trimmed := trimSpace line
  if hasPrefix trimmed "-- Database:" then
    let name := trimSpace (trimPrefix trimmed "-- Database:")
    if name ≠ "" then some name else none
  else none

def rewriteBatch (batch sourceDB firstDB : String) : String :=
  if sourceDB ≠ "" ∧ sourceDB ≠ firstDB then
    replaceAll batch ("[" ++ sourceDB ++ "].") ("[" ++ firstDB ++ "].")
  else batch

structure StreamState (State : Type) where
  pending : List String := []
  sourceDB : String := ""
  database : State

/-- The callback `Restore` hands to `restoreStream`. -/
def execBatch (server : Server State) (firstDB sourceDB batch : String) (database : State) :
    Except String State :=
  let stmt := rewriteBatch batch sourceDB firstDB
  if trimSpace stmt = "" then .ok database else server.exec database stmt

def flush (server : Server State) (firstDB : String) (state : StreamState State) :
    Except String (StreamState State) :=
  let batch := trimSpace (joinLines state.pending)
  if batch = "" then .ok { state with pending := [] }
  else do
    let database ← execBatch server firstDB state.sourceDB batch state.database
    pure { state with pending := [], database := database }

def streamLine (server : Server State) (firstDB : String) (state : StreamState State)
    (line : String) : Except String (StreamState State) :=
  let state :=
    if state.sourceDB = "" then { state with sourceDB := (markerSourceDB line).getD "" } else state
  if isGOSeparator line then flush server firstDB state
  else .ok { state with pending := state.pending ++ [line] }

def restoreStream (server : Server State) (firstDB text : String) (database : State) :
    Except String State := do
  let state ← (textLines text).foldlM (streamLine server firstDB) { database := database }
  let state ← flush server firstDB state
  pure state.database

/-! ### The lines of a dump -/

/-- A comment that neither ends a batch nor names a source database. -/
structure PlainLine (line : String) : Prop where
  noMarker : markerSourceDB line = none
  noGO : isGOSeparator line = false
  comment : trimSpace line = "" ∨ hasPrefix (trimSpace line) "--" = true

theorem plainLine_append {start : String} {letter : Char} {tail : List Char} (firm : Firm start)
    (shape : start.toList = '-' :: '-' :: ' ' :: letter :: tail) (other : letter ≠ 'D')
    (rest : String) : PlainLine (start ++ rest) := by
  obtain ⟨kept, trimmed⟩ := trimSpace_append firm rest
  have different : 'D' ≠ letter := Ne.symm other
  refine ⟨?_, ?_, .inr ?_⟩
  · simp [markerSourceDB, trimmed, hasPrefix, shape, different]
  · unfold isGOSeparator toLower
    rw [trimmed, decide_eq_false_iff_not]
    intro isGO
    have letters := congrArg String.toList isGO
    simp [shape] at letters
  · simp [trimmed, hasPrefix, shape]

theorem plainLine_dumpLines (strategy firstDB : String) :
    ∀ line ∈ dumpLines strategy firstDB, PlainLine line := by
  intro line member
  simp only [dumpLines, List.mem_cons, List.not_mem_nil, or_false] at member
  rcases member with rfl | rfl | rfl | rfl | rfl
  · have shape : "-- MSSQL " ++ strategy ++ " for " ++ firstDB =
        "-- MSSQL" ++ (" " ++ strategy ++ " for " ++ firstDB) := by simp [← String.append_assoc]
    rw [shape]
    exact plainLine_append (by decide) rfl (by decide) _
  · have shape : ∃ rest, "-- " ++ backupStmt strategy firstDB = "-- BACKUP" ++ rest := by
      unfold backupStmt
      split
      · exact ⟨" LOG [" ++ firstDB ++ "] TO DISK='NUL' WITH FORMAT, COMPRESSION",
          by simp [← String.append_assoc]⟩
      · exact ⟨" DATABASE [" ++ firstDB ++
          "] TO DISK='NUL' WITH DIFFERENTIAL, FORMAT, COMPRESSION", by simp [← String.append_assoc]⟩
    obtain ⟨rest, isBackup⟩ := shape
    rw [isBackup]
    exact plainLine_append (by decide) rfl (by decide) _
  · exact ⟨by decide, by decide, .inl (by decide)⟩
  · exact plainLine_append (show Firm "-- Backup" by decide) rfl (by decide) " executed successfully"
  · exact plainLine_append (show Firm "-- WAL/LSN" by decide) rfl (by decide)
      " position recorded in sidecar"

theorem oneLine_dumpLines {strategy firstDB : String} (strategyLine : OneLine strategy)
    (nameLine : OneLine firstDB) : ∀ line ∈ dumpLines strategy firstDB, OneLine line := by
  have stmtLine : OneLine (backupStmt strategy firstDB) := by
    unfold backupStmt
    split
    · exact ((show OneLine "BACKUP LOG [" by decide).append nameLine).append (by decide)
    · exact ((show OneLine "BACKUP DATABASE [" by decide).append nameLine).append (by decide)
  intro line member
  simp only [dumpLines, List.mem_cons, List.not_mem_nil, or_false] at member
  rcases member with rfl | rfl | rfl | rfl | rfl
  · exact (((show OneLine "-- MSSQL " by decide).append strategyLine).append (by decide)).append
      nameLine
  · exact (show OneLine "-- " by decide).append stmtLine
  · decide
  · decide
  · decide

/-! ### Restoring a dump -/

theorem foldlM_streamLine (server : Server State) (firstDB : String) (lines : List String)
    (plain : ∀ line ∈ lines, PlainLine line) {state : StreamState State}
    (noSource : state.sourceDB = "") :
    lines.foldlM (streamLine server firstDB) state =
      .ok { state with pending := state.pending ++ lines } := by
  induction lines generalizing state with
  | nil => simp [pure, Except.pure]
  | cons line rest ih =>
    have isPlain := plain line List.mem_cons_self
    have stepped : streamLine server firstDB state line =
        .ok { state with pending := state.pending ++ [line] } := by
      simp [streamLine, isPlain.noMarker, isPlain.noGO, noSource]
    rw [List.foldlM_cons, stepped]
    show rest.foldlM (streamLine server firstDB) _ = _
    have restPlain : ∀ other ∈ rest, PlainLine other := (List.forall_mem_cons.mp plain).2
    rw [@ih restPlain { state with pending := state.pending ++ [line] } noSource]
    simp

/-- The whole dump is one batch, and it holds comments only. -/
theorem dump_batch {strategy firstDB : String} (strategyLine : OneLine strategy)
    (nameLine : OneLine firstDB) :
    ∃ batch, trimSpace (joinLines (dumpLines strategy firstDB)) = batch ∧ trimSpace batch = batch ∧
      batch ≠ "" ∧ CommentsOnly batch := by
  have oneLine := oneLine_dumpLines strategyLine nameLine
  have plain := plainLine_dumpLines strategy firstDB
  obtain ⟨init, split⟩ : ∃ init, dumpLines strategy firstDB =
      init ++ ["-- WAL/LSN position recorded in sidecar"] :=
    ⟨(dumpLines strategy firstDB).dropLast, rfl⟩
  obtain ⟨middle, begins⟩ : ∃ middle, joinLines init = "-- MSSQL" ++ middle := by
    have initShape : init = (dumpLines strategy firstDB).dropLast := by rw [split]; simp
    refine ⟨String.ofList ((joinLines init).toList.drop 8), ?_⟩
    apply String.toList_injective
    rw [initShape]
    simp [joinLines, dumpLines]
  have firm : Firm (joinLines init ++ "-- WAL/LSN position recorded in sidecar") := by
    rw [begins]
    exact Firm.append (by decide) (by decide)
  rw [split] at oneLine plain ⊢
  refine ⟨joinLines init ++ "-- WAL/LSN position recorded in sidecar", ?_, ?_, ?_, ?_⟩
  · rw [joinLines_concat, trimSpace_append_blank firm (by simp [isSpace])]
  · have whole := trimSpace_append_blank firm (show ∀ c ∈ "".toList, isSpace c = true by simp)
    rwa [String.append_empty] at whole
  · intro empty
    have letters := congrArg String.toList empty
    rw [begins] at letters
    simp at letters
  · intro line member
    rw [textLines_joinLines_append (fun line inInit => oneLine line (by simp [inInit]))
      (by decide) (by decide)] at member
    exact (plain line member).comment

theorem restoreStream_dump (server : Server State) {strategy firstDB : String}
    (strategyLine : OneLine strategy) (nameLine : OneLine firstDB) (target : String)
    (database : State) :
    restoreStream server target (joinLines (dumpLines strategy firstDB)) database =
      .ok database := by
  obtain ⟨batch, isBatch, trimmed, notEmpty, comments⟩ := dump_batch strategyLine nameLine
  unfold restoreStream
  rw [textLines_joinLines (oneLine_dumpLines strategyLine nameLine),
    foldlM_streamLine server target _ (plainLine_dumpLines strategy firstDB) rfl]
  simp only [bind, Except.bind, flush, List.nil_append, isBatch, notEmpty, ↓reduceIte, execBatch,
    rewriteBatch, ne_eq, not_true_eq_false, false_and, trimmed, server.exec_comments _ _ comments]
  rfl

/-! ### What a dump carries -/

/-- Restoring the base and then what was written at `later` gives `later`. -/
def Carries (server : Server State) (strategy firstDB target : String) (base later : State) :
    Prop :=
  ∀ text, incrementalDump server strategy firstDB later = .ok text →
    restoreStream server target text base = .ok later

/-- **An incremental or differential carries nothing.** Its output does not
depend on the state, and it restores to the base state whatever the state was
when it was taken. -/
theorem carries_iff (server : Server State) (strategy firstDB target : String)
    (base later : State) (nameLine : OneLine firstDB) :
    (Carries server strategy firstDB target base later ↔
        ((strategy = "incremental" ∨ strategy = "differential") →
          server.backup later (backupStmt strategy firstDB) = true → later = base)) ∧
      ∀ other text otherText, incrementalDump server strategy firstDB later = .ok text →
        incrementalDump server strategy firstDB other = .ok otherText → text = otherText := by
  have written : ∀ state text, incrementalDump server strategy firstDB state = .ok text →
      (strategy = "incremental" ∨ strategy = "differential") ∧
        server.backup state (backupStmt strategy firstDB) = true ∧
        text = joinLines (dumpLines strategy firstDB) := by
    intro state text dumped
    unfold incrementalDump at dumped
    split at dumped
    · exact absurd dumped (by simp)
    · rename_i supported
      split at dumped
      · rename_i backedUp
        exact ⟨by tauto, backedUp, (Except.ok.inj dumped).symm⟩
      · exact absurd dumped (by simp)
  refine ⟨⟨?_, ?_⟩, ?_⟩
  · intro carries supported backedUp
    have dumped : incrementalDump server strategy firstDB later =
        .ok (joinLines (dumpLines strategy firstDB)) := by
      unfold incrementalDump
      rw [if_neg (by tauto), if_pos backedUp]
    have strategyLine : OneLine strategy := by
      rcases supported with rfl | rfl <;> decide
    have restored := carries _ dumped
    rw [restoreStream_dump server strategyLine nameLine] at restored
    exact (Except.ok.inj restored).symm
  · intro unchanged text dumped
    obtain ⟨supported, backedUp, rfl⟩ := written later text dumped
    have strategyLine : OneLine strategy := by
      rcases supported with rfl | rfl <;> decide
    rw [restoreStream_dump server strategyLine nameLine, unchanged supported backedUp]
  · intro other text otherText dumped otherDumped
    rw [(written later text dumped).2.2, (written other otherText otherDumped).2.2]

/-- A database that counts its changes; batches other than comments do not occur. -/
def countingServer : Server Nat where
  backup _ _ := true
  exec state _ := .ok state
  exec_comments _ _ _ := rfl

/-- One change after the base is lost, and the output does not show it. -/
theorem change_not_carried :
    ¬ Carries countingServer "incremental" "app" "app" 0 1 ∧
      incrementalDump countingServer "incremental" "app" 0 =
        incrementalDump countingServer "incremental" "app" 1 := by
  refine ⟨fun carries => ?_, rfl⟩
  have restored := carries _ rfl
  rw [restoreStream_dump countingServer (by decide) (by decide)] at restored
  exact absurd (Except.ok.inj restored) (by decide)

theorem carries_unchanged_sample : Carries countingServer "differential" "app" "app" 0 0 :=
  (carries_iff countingServer "differential" "app" "app" 0 0 (by decide)).1.mpr fun _ _ => rfl

end DbBackup.Engine.Mssql
