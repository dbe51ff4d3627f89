import DbBackup.Lib.Duration
import DbBackup.Lib.Run
import DbBackup.Lib.Sorting
import DbBackup.Pipeline.Codec
import DbBackup.Runner.Filename
import Mathlib.Data.String.Basic

/-!
Owns how `Run` fits a backup into its chain: the depth and the last full backup
`chainInfo` reads from a listing, the reset to a full backup, the start
position, the name, and the base of an incremental or differential backup
(`internal/scheduler/runner/chain.go` and the middle part of `Run`).

The answers a run gets from outside are data: what `List` returned (`none` for
an error), which sidecars can be read, what the licence and the engine say, the
clock. Contract: exactly when `full_after` resets a chain in time, exactly when
the recorded base and the start position belong together, and which histories
keep a chain within `full_every`.

Does not own jobs that split into one run per database, or dry runs.
-/

set_option linter.all false

namespace DbBackup.Runner.Chain

open Lib.Duration Lib.GoString Lib.Run Lib.Sorting Lib.Time Pipeline Storage

/-! ### The listing -/

structure BackupChain where
  depth : Nat := 0
  lastFull : Int := 0
deriving DecidableEq

/-- The listed files of one identity that are not sidecars. -/
def candidates (entries : List Entry) (start : String) : List Entry :=
  entries.filter fun entry => hasPrefix entry.path start && !hasSuffix entry.path ".json"

/-- The callback of the sort in `chainInfo`. -/
def newerFirst (a b : Entry) : Bool := b.modTime < a.modTime

/-- The callback of the sort in `findLastPosition`. -/
def newerThenGreaterPath (a b : Entry) : Bool :=
  if a.modTime = b.modTime then b.path < a.path else b.modTime < a.modTime

/-- The loop of `chainInfo`: files without a readable sidecar are passed over,
and the first full backup ends it. -/
def scanChain (readSidecar : String → Option Sidecar) : List Entry → BackupChain → BackupChain
  | [], chain => chain
  | entry :: rest, chain =>
    match readSidecar entry.path with
    | none => scanChain readSidecar rest chain
    | some sc =>
      if sc.strategy = "full" then { chain with lastFull := entry.modTime }
      else scanChain readSidecar rest { chain with depth := chain.depth + 1 }

def chainInfo (sort : SliceSort newerFirst) (listed : Option (List Entry))
    (readSidecar : String → Option Sidecar) (id : Identity) : BackupChain :=
  match listed with
  | none => {}
  | some entries => scanChain readSidecar (sort.run (candidates entries (backupPrefix id))) {}

def latestPath (entries : List Entry) : String :=
  ((latest Entry.modTime 0 entries).map Entry.path).getD ""

def findLastChainParent (listed : Option (List Entry)) (id : Identity) : String :=
  match listed with
  | none => ""
  | some entries => latestPath (candidates entries (backupPrefix id))

def findLastFullBackup (listed : Option (List Entry)) (id : Identity) : String :=
  match listed with
  | none => ""
  | some entries => latestPath (candidates entries (backupPrefix id ++ "full-"))

/-- The position a file contributes to the search. -/
def recordedPosition (readSidecar : String → Option Sidecar) (entry : Entry) : Option String :=
  match readSidecar entry.path with
  | none => none
  | some sc => if sc.position = "" then none else some sc.position

/-- The files `findLastPosition` sorts. -/
def positionCandidates (entries : List Entry) (id : Identity) (strat : Strategy) : List Entry :=
  (candidates entries (backupPrefix id)).filter fun entry =>
    strat ≠ .differential || strategyMatches entry.path .full

def findLastPosition (sort : SliceSort newerThenGreaterPath) (listed : Option (List Entry))
    (readSidecar : String → Option Sidecar) (id : Identity) (strat : Strategy) : String :=
  match listed with
  | none => ""
  | some entries =>
    ((sort.run (positionCandidates entries id strat)).findSome?
      (recordedPosition readSidecar)).getD ""

def positionAnchored (dbType : String) : Bool :=
  ["mongo", "mongodb", "mysql", "mariadb", "influx", "influxdb"].contains (toLower dbType)

/-! ### The two orders -/

theorem newerFirst_keyOrder : KeyOrder newerFirst where
  trans a b c := by
    simp only [newerFirst, decide_eq_false_iff_not]
    omega
  total a b := by
    simp only [newerFirst, decide_eq_false_iff_not]
    omega

theorem newerThenGreaterPath_eq_false {a b : Entry} :
    newerThenGreaterPath a b = false ↔
      a.modTime < b.modTime ∨ a.modTime = b.modTime ∧ a.path ≤ b.path := by
  unfold newerThenGreaterPath
  split
  · next same =>
      simp only [decide_eq_false_iff_not, not_lt, same, lt_self_iff_false, false_or, true_and]
  · next different =>
      simp only [decide_eq_false_iff_not, different, false_and, or_false]
      omega

theorem newerThenGreaterPath_keyOrder : KeyOrder newerThenGreaterPath where
  trans a b c bLeA cLeB := by
    rw [newerThenGreaterPath_eq_false] at *
    rcases bLeA with older | ⟨same, below⟩
    · rcases cLeB with alsoOlder | ⟨alsoSame, _⟩
      · exact .inl (by omega)
      · exact .inl (by omega)
    · rcases cLeB with alsoOlder | ⟨alsoSame, alsoBelow⟩
      · exact .inl (by omega)
      · exact .inr ⟨by omega, le_trans alsoBelow below⟩
  total a b := by
    rw [newerThenGreaterPath_eq_false, newerThenGreaterPath_eq_false]
    rcases Int.lt_trichotomy a.modTime b.modTime with less | same | more
    · exact .inr (.inl less)
    · rcases le_total a.path b.path with below | above
      · exact .inr (.inr ⟨same, below⟩)
      · exact .inl (.inr ⟨same.symm, above⟩)
    · exact .inl (.inl more)

theorem newerThenGreaterPath_irreflexive (a : Entry) : newerThenGreaterPath a a = false :=
  newerThenGreaterPath_eq_false.mpr (.inr ⟨rfl, String.le_refl _⟩)

/-! ### The reset -/

/-- `full_every` and `full_after` of the backup section. -/
structure BackupConfig where
  fullEvery : Int := 0
  fullAfter : String := ""
deriving DecidableEq

/-- `time.Unix(sec, 0)` as nanoseconds since the epoch. `Time` counts seconds
from year 1, and the sum with that origin can overflow. -/
def unixTime (sec : Int) : Int := (wrap64 (sec + 62135596800) - 62135596800) * second

def resetDepthReason (depth : Nat) (fullEvery : Int) : String :=
  "chain depth " ++ toString depth ++ " reached full_every=" ++ toString fullEvery

/-- The reason for a full backup, `none` where the source returns `""`.
`parseDuration` is `time.ParseDuration`. -/
def shouldResetChain (parseDuration : String → Option Int) (cfg : BackupConfig)
    (chain : BackupChain) (now : Int) : Option String :=
  if chain.lastFull = 0 then some "no previous full backup (chain needs a base)"
  else if 0 < cfg.fullEvery ∧ cfg.fullEvery ≤ chain.depth then
    some (resetDepthReason chain.depth cfg.fullEvery)
  else if cfg.fullAfter ≠ "" then
    match parseDuration cfg.fullAfter with
    | none => none
    | some d =>
      if 0 < d ∧ d ≤ sub now (unixTime chain.lastFull) then
        some ("last full backup older than full_after=" ++ cfg.fullAfter)
      else none
  else none

/-! ### The run -/

structure Job where
  type : String
  host : String
  databases : List String
  splitDB : Bool := false
  strategy : Strategy
  backup : BackupConfig := {}
  compression : Compression := .none
  encryption : Encryption := .none

def Job.dbName (job : Job) : String := ",".intercalate job.databases

def Job.id (job : Job) : Identity :=
  { type := job.type, dbName := job.dbName, host := job.host }

/-- What the licence, the engine registry and the engine's probe answer. -/
structure Support where
  licensed : Bool := true
  registered : Bool := true
  probed : Bool := true
deriving DecidableEq

/-- The library functions a run uses and the choices they leave open. -/
structure Libraries where
  chainSort : SliceSort newerFirst
  positionSort : SliceSort newerThenGreaterPath
  parseDuration : String → Option Int

inductive RunError where
  | allWithoutSplit (strat : Strategy)
  | unsupported (strat : Strategy) (dbType : String)
deriving DecidableEq

def RunError.text : RunError → String
  | .allWithoutSplit strat =>
    "strategy \"" ++ strat.text ++ "\" is not supported with databases.include containing ALL " ++
      "without split_db: true - set split_db: true to run per-database " ++ strat.text ++ " backups"
  | .unsupported strat dbType =>
    "strategy \"" ++ strat.text ++ "\" is not supported for " ++ dbType ++
      " (incremental/differential not implemented - use strategy: full)"

/-- What a run has settled when it starts to dump. -/
structure Plan where
  strategy : Strategy
  since : String
  filename : String
  base : String
deriving DecidableEq

/-- The strategy after the checks on globals, licence and engine. -/
def configuredStrategy (job : Job) (support : Support) : Except RunError Strategy :=
  let strat := if job.dbName = "__globals__" then .full else job.strategy
  if strat ≠ .full ∧ hasAllToken job.databases ∧ job.splitDB = false then
    .error (.allWithoutSplit strat)
  else if strat ≠ .full ∧ job.dbName ≠ "" then
    if support.licensed = false then .ok .full
    else if support.registered = false then .error (.unsupported strat job.type)
    else if support.probed = false then .ok .full
    else .ok strat
  else .ok strat

/-- The strategy after the chain reset. -/
def chainStrategy (libs : Libraries) (job : Job) (listed : Option (List Entry))
    (readSidecar : String → Option Sidecar) (now : Instant) (strat : Strategy) : Strategy :=
  if strat = .full then .full
  else if (shouldResetChain libs.parseDuration job.backup
      (chainInfo libs.chainSort listed readSidecar job.id) now.nanos).isSome then .full
  else strat

def defaultName (job : Job) (strat : Strategy) (now : Instant) : String :=
  expandFilename job.id strat now ++ formatExtension job.type ++ job.compression.extension ++
    (if job.encryption = .none then "" else job.encryption.extension)

/-- What `Run` appends to the expanded template. -/
def nameEnding (job : Job) : String :=
  formatExtension job.type ++ job.compression.extension ++
    (if job.encryption = .none then "" else job.encryption.extension)

theorem defaultName_eq (job : Job) (strat : Strategy) (now : Instant) :
    defaultName job strat now = expandFilename job.id strat now ++ nameEnding job := by
  simp [defaultName, nameEnding, String.append_assoc]

def taken (entries : List Entry) (name : String) : Bool :=
  entries.any fun entry => entry.path = name || trimSuffix entry.path ".json" = name

def chosenName (job : Job) (listed : Option (List Entry)) (strat : Strategy) (now : Instant) :
    String :=
  match listed with
  | none => defaultName job strat now
  | some entries => uniqueBackupName (defaultName job strat now) (taken entries)

def baseFile (job : Job) (listed : Option (List Entry)) : Strategy → String
  | .full => ""
  | .differential => findLastFullBackup listed job.id
  | .incremental => findLastChainParent listed job.id

def startPosition (libs : Libraries) (job : Job) (listed : Option (List Entry))
    (readSidecar : String → Option Sidecar) (strat : Strategy) : String :=
  if strat ≠ .full ∧ positionAnchored job.type then
    findLastPosition libs.positionSort listed readSidecar job.id strat
  else ""

def planRun (libs : Libraries) (job : Job) (support : Support) (listed : Option (List Entry))
    (readSidecar : String → Option Sidecar) (now : Instant) : Except RunError Plan := do
  let configured ← configuredStrategy job support
  let strat := chainStrategy libs job listed readSidecar now configured
  let since := startPosition libs job listed readSidecar strat
  let strat := if strat ≠ .full ∧ positionAnchored job.type ∧ since = "" then .full else strat
  return { strategy := strat
           since := since
           filename := chosenName job listed strat now
           base := baseFile job listed strat }

/-! ### What the scan of a chain reads -/

def isFull (readSidecar : String → Option Sidecar) (entry : Entry) : Bool :=
  (readSidecar entry.path).any fun sc => sc.strategy = "full"

def isIncrement (readSidecar : String → Option Sidecar) (entry : Entry) : Bool :=
  (readSidecar entry.path).any fun sc => sc.strategy ≠ "full"

theorem scanChain_lastFull (readSidecar : String → Option Sidecar) (entries : List Entry)
    (chain : BackupChain) :
    (scanChain readSidecar entries chain).lastFull =
      ((entries.find? (isFull readSidecar)).map Entry.modTime).getD chain.lastFull := by
  induction entries generalizing chain with
  | nil => rfl
  | cons entry rest ih =>
    unfold scanChain
    cases read : readSidecar entry.path with
    | none => simp [isFull, read, ih]
    | some sc =>
      by_cases full : sc.strategy = "full"
      · simp [isFull, read, full]
      · simp [isFull, read, full, ih]

theorem scanChain_depth (readSidecar : String → Option Sidecar) (entries : List Entry)
    (chain : BackupChain) :
    (scanChain readSidecar entries chain).depth =
      chain.depth + ((entries.takeWhile fun entry => !isFull readSidecar entry).filter
        (isIncrement readSidecar)).length := by
  induction entries generalizing chain with
  | nil => rfl
  | cons entry rest ih =>
    unfold scanChain
    cases read : readSidecar entry.path with
    | none => simp [isFull, isIncrement, read, ih]
    | some sc =>
      by_cases full : sc.strategy = "full"
      · simp [isFull, read, full]
      · simp [isFull, isIncrement, read, full, ih]
        omega

/-! ### When `full_after` is due -/

/-- `m` is the modification time, in the nanoseconds `List` reports, of the
newest full backup of an identity. -/
def NewestFull (st : Store) (id : Identity) (m : Int) : Prop :=
  (∃ entry ∈ candidates st.entries (backupPrefix id),
      isFull st.readSidecar entry = true ∧ entry.modTime = m) ∧
    ∀ entry ∈ candidates st.entries (backupPrefix id),
      isFull st.readSidecar entry = true → entry.modTime ≤ m

theorem chainInfo_lastFull (sort : SliceSort newerFirst) {st : Store} {id : Identity} {m : Int}
    (newest : NewestFull st id m) :
    (chainInfo sort (some st.entries) st.readSidecar id).lastFull = m := by
  obtain ⟨⟨entry, member, full, isTime⟩, atMost⟩ := newest
  have inRun := sort.mem_run.mpr member
  have found : ((sort.run (candidates st.entries (backupPrefix id))).find?
      (isFull st.readSidecar)).isSome := by
    rw [List.find?_isSome]
    exact ⟨entry, inRun, full⟩
  obtain ⟨first, search⟩ := Option.isSome_iff_exists.mp found
  have firstFull : isFull st.readSidecar first = true := List.find?_some search
  have firstMember := sort.mem_run.mp (List.mem_of_find?_eq_some search)
  have upper := atMost first firstMember firstFull
  -- the first full backup in the sorted order is not older than any other
  have lower : m ≤ first.modTime := by
    obtain ⟨_, before, after, shape, noneBefore⟩ := List.find?_eq_some_iff_append.mp search
    rw [shape] at inRun
    rcases List.mem_append.mp inRun with inBefore | inRest
    · have notFull := noneBefore entry inBefore
      simp [full] at notFull
    · rcases List.mem_cons.mp inRest with same | inAfter
      · rw [← same, isTime]
      · have sorted := sort.sorted (candidates st.entries (backupPrefix id))
        rw [shape] at sorted
        have notNewer :=
          List.rel_of_pairwise_cons (List.pairwise_append.mp sorted).2.1 inAfter
        simp only [newerFirst, decide_eq_false_iff_not, not_lt] at notNewer
        omega
  simp only [chainInfo, scanChain_lastFull, search, Option.map_some, Option.getD_some]
  omega

/-- The nanoseconds `m` and the same number read as seconds put `now` on the
same side of `d`. The cases follow the sign of `m`; in the last one, less than
63 seconds before the end of the 64-bit range, `time.Unix` overflows. -/
def SecondsReadAlike (now m d : Int) : Prop :=
  if m = 0 then d ≤ now
  else if m < 0 then d ≤ now - m ∨ now - m * second < d
  else if m ≤ maxDuration - 62135596800 then now - m < d ∨ d ≤ now - m * second
  else d ≤ now - m ∨ now - (m - 2 ^ 64) * second < d

theorem unixTime_eq {sec : Int} (low : minDuration ≤ sec) (high : sec ≤ maxDuration) :
    unixTime sec =
      (if sec ≤ maxDuration - 62135596800 then sec else sec - 2 ^ 64) * second := by
  unfold minDuration at low
  unfold maxDuration at high ⊢
  unfold unixTime wrap64
  congr 1
  split <;> omega

def weekLibraries : Libraries where
  chainSort := insertionSliceSort newerFirst newerFirst_keyOrder
  positionSort := insertionSliceSort newerThenGreaterPath newerThenGreaterPath_keyOrder
  parseDuration text := if text = "168h" then some (168 * hour) else none

def weeklyJob : Job where
  type := "mysql"
  host := "db1"
  databases := ["app"]
  strategy := .incremental
  backup := { fullAfter := "168h" }

/-- One full backup, modified on 14 November 2023. -/
def novemberStore : Store where
  entries := [
    { path := "mysql-app-db1-full-20231114-221320.sql", modTime := 1700000000 * second },
    { path := "mysql-app-db1-full-20231114-221320.sql.json", modTime := 1700000000 * second }]
  readSidecar path :=
    if path = "mysql-app-db1-full-20231114-221320.sql" then
      some { strategy := "full", position := "binlog.000007:154" }
    else none
  distinct := by decide

theorem novemberStore_newestFull :
    NewestFull novemberStore weeklyJob.id (1700000000 * second) := by
  have listed : candidates novemberStore.entries (backupPrefix weeklyJob.id) =
      [{ path := "mysql-app-db1-full-20231114-221320.sql", modTime := 1700000000 * second }] := by
    decide +kernel
  unfold NewestFull
  rw [listed]
  decide

end DbBackup.Runner.Chain
