import DbBackup.Runner.Chain

/-!
Owns the two searches behind a position-anchored increment: the file `Run`
records as its base and the position it reads from. They go over one listing
independently, one by modification time alone, the other through the sidecars.

Contract: the base and the position of a run belong together exactly in the
storages of `PositionsFollowBase`.
-/

namespace DbBackup.Runner.Chain

open Lib.GoString Lib.Sorting Lib.Time Storage

/-- The beginning of the names among which a strategy looks for its base: all
backups of the identity, or its full ones. -/
def basePrefix (id : Identity) : Strategy → String
  | .differential => backupPrefix id ++ "full-"
  | _ => backupPrefix id

/-- The plan's base is the newest backup (the newest full one, for a
differential), and the plan starts where that backup's sidecar ends. -/
def BaseAndPositionAgree (st : Store) (id : Identity) (plan : Plan) : Prop :=
  ∃ entry ∈ candidates st.entries (basePrefix id plan.strategy),
    plan.base = entry.path ∧
      (∀ other ∈ candidates st.entries (basePrefix id plan.strategy),
        other.modTime ≤ entry.modTime) ∧
      ∃ sc, st.readSidecar entry.path = some sc ∧ plan.since = sc.position

/-- The last listed of the newest backups records a position, and among the
files of the position search every file with another position comes after one
with that position. -/
def PositionsFollowBase (st : Store) (id : Identity) (strat : Strategy) : Prop :=
  ∃ entry sc,
    IsLatest Entry.modTime 0 (candidates st.entries (basePrefix id strat)) entry ∧
      st.readSidecar entry.path = some sc ∧ sc.position ≠ "" ∧
      (∃ holder ∈ positionCandidates st.entries id strat,
        recordedPosition st.readSidecar holder = some sc.position) ∧
      ∀ other ∈ positionCandidates st.entries id strat, ∀ position,
        recordedPosition st.readSidecar other = some position → position ≠ sc.position →
        ∃ holder ∈ positionCandidates st.entries id strat,
          recordedPosition st.readSidecar holder = some sc.position ∧
            newerThenGreaterPath holder other = true

/-! ### The two searches -/

variable {entries : List Entry} {entry : Entry}

theorem mem_entries_of_mem_candidates {start : String}
    (member : entry ∈ candidates entries start) : entry ∈ entries :=
  List.mem_of_mem_filter member

variable (st : Store)

theorem entry_eq_of_path {a b : Entry} (aMember : a ∈ st.entries)
    (bMember : b ∈ st.entries) (samePath : a.path = b.path) : a = b :=
  List.inj_on_of_nodup_map st.distinct aMember bMember samePath

theorem positionCandidates_decisive (id : Identity) (strat : Strategy) :
    ∀ a ∈ positionCandidates st.entries id strat, ∀ b ∈ positionCandidates st.entries id strat,
      newerThenGreaterPath a b = false → newerThenGreaterPath b a = false → a = b := by
  intro a aMember b bMember aNotLess bNotLess
  rw [newerThenGreaterPath_eq_false] at aNotLess bNotLess
  have samePath : a.path = b.path := by
    rcases aNotLess with older | ⟨same, below⟩
    · rcases bNotLess with newer | ⟨same, _⟩
      · omega
      · omega
    · rcases bNotLess with newer | ⟨_, above⟩
      · omega
      · exact String.le_antisymm below above
  have inStore : ∀ entry ∈ positionCandidates st.entries id strat, entry ∈ st.entries := by
    intro entry member
    exact mem_entries_of_mem_candidates (List.mem_of_mem_filter member)
  exact entry_eq_of_path st (inStore a aMember) (inStore b bMember) samePath

/-- What the position search returns, for a position that is not empty. -/
theorem findLastPosition_eq_iff (sort : SliceSort newerThenGreaterPath) (st : Store) (id : Identity)
    (strat : Strategy) {position : String} (notEmpty : position ≠ "") :
    findLastPosition sort (some st.entries) st.readSidecar id strat = position ↔
      (∃ holder ∈ positionCandidates st.entries id strat,
        recordedPosition st.readSidecar holder = some position) ∧
      ∀ other ∈ positionCandidates st.entries id strat, ∀ otherPosition,
        recordedPosition st.readSidecar other = some otherPosition → otherPosition ≠ position →
        ∃ holder ∈ positionCandidates st.entries id strat,
          recordedPosition st.readSidecar holder = some position ∧
            newerThenGreaterPath holder other = true := by
  rw [← sort.findSome?_run newerThenGreaterPath_irreflexive
    (positionCandidates_decisive st id strat) (recordedPosition st.readSidecar) position]
  unfold findLastPosition
  cases search : (sort.run (positionCandidates st.entries id strat)).findSome?
      (recordedPosition st.readSidecar) with
  | none => simp [search, Ne.symm notEmpty]
  | some found => simp [search]

variable {strat : Strategy}

theorem baseFile_eq (job : Job) (st : Store) (notFull : strat ≠ .full) :
    baseFile job (some st.entries) strat =
      latestPath (candidates st.entries (basePrefix job.id strat)) := by
  cases strat with
  | full => exact absurd rfl notFull
  | incremental => rfl
  | differential => rfl

theorem path_ne_empty_of_mem_candidates {id : Identity}
    (member : entry ∈ candidates entries (basePrefix id strat)) :
    entry.path ≠ "" := by
  intro empty
  have matching := (List.mem_filter.mp member).2
  simp only [Bool.and_eq_true, empty] at matching
  have begins := matching.1
  unfold hasPrefix at begins
  rw [List.isPrefixOf_iff_prefix] at begins
  have noChars := List.prefix_nil.mp begins
  have prefixChars : '-' ∈ (basePrefix id strat).toList := by
    cases strat <;> simp [basePrefix, backupPrefix]
  rw [noChars] at prefixChars
  exact absurd prefixChars (by simp)

theorem latestPath_eq_iff {id : Identity} (fromStore : ∀ other ∈ entries, other ∈ st.entries)
    (member : entry ∈ candidates entries (basePrefix id strat)) :
    latestPath (candidates entries (basePrefix id strat)) = entry.path ↔
      IsLatest Entry.modTime 0 (candidates entries (basePrefix id strat)) entry := by
  rw [← latest_eq_some_iff]
  unfold latestPath
  cases found : latest Entry.modTime 0 (candidates entries (basePrefix id strat)) with
  | none =>
    simpa using (path_ne_empty_of_mem_candidates member).symm
  | some other =>
    have otherMember := (latest_eq_some_iff.mp found).mem
    simp only [Option.map_some, Option.getD_some, Option.some.injEq]
    constructor
    · intro samePath
      exact entry_eq_of_path st (fromStore other (mem_entries_of_mem_candidates otherMember))
        (fromStore entry (mem_entries_of_mem_candidates member)) samePath
    · intro same
      rw [same]

/-! ### Base and position of a run -/

theorem baseAndPositionAgree_iff (sort : SliceSort newerThenGreaterPath) (job : Job) (st : Store)
    {plan : Plan} (notFull : plan.strategy ≠ .full)
    (isBase : plan.base = baseFile job (some st.entries) plan.strategy)
    (isSince : plan.since =
      findLastPosition sort (some st.entries) st.readSidecar job.id plan.strategy)
    (anchored : plan.since ≠ "") :
    BaseAndPositionAgree st job.id plan ↔ PositionsFollowBase st job.id plan.strategy := by
  rw [baseFile_eq job st notFull] at isBase
  have latestIff : ∀ entry ∈ candidates st.entries (basePrefix job.id plan.strategy),
      plan.base = entry.path ↔ IsLatest Entry.modTime 0
        (candidates st.entries (basePrefix job.id plan.strategy)) entry := by
    intro entry member
    rw [isBase]
    exact latestPath_eq_iff st (fun other inStore => inStore) member
  constructor
  · rintro ⟨entry, member, samePath, -, sc, read, sinceIs⟩
    have notEmpty : sc.position ≠ "" := by
      rw [← sinceIs]
      exact anchored
    have searched := (findLastPosition_eq_iff sort st job.id plan.strategy notEmpty).mp
      (isSince.symm.trans sinceIs)
    exact ⟨entry, sc, (latestIff entry member).mp samePath, read, notEmpty, searched⟩
  · rintro ⟨entry, sc, isLatest, read, notEmpty, searched⟩
    have member := isLatest.mem
    have sinceIs := (findLastPosition_eq_iff sort st job.id plan.strategy notEmpty).mpr searched
    exact ⟨entry, member, (latestIff entry member).mpr isLatest,
      fun other otherMember => isLatest.key_le otherMember, sc, read, isSince.trans sinceIs⟩

/-- What a run that ends up with a position-anchored increment has settled. -/
theorem planRun_increment {libs : Libraries} {job : Job} {support : Support}
    {listed : Option (List Entry)} {readSidecar : String → Option Sidecar} {now : Instant}
    {plan : Plan} (planned : planRun libs job support listed readSidecar now = .ok plan)
    (notFull : plan.strategy ≠ .full) (anchored : positionAnchored job.type = true) :
    plan.since ≠ "" ∧
      plan.since = findLastPosition libs.positionSort listed readSidecar job.id plan.strategy ∧
      plan.base = baseFile job listed plan.strategy := by
  unfold planRun at planned
  cases configured : configuredStrategy job support with
  | error failure =>
    rw [configured] at planned
    exact absurd planned (by simp [bind, Except.bind])
  | ok strat =>
    rw [configured] at planned
    have isPlan := Except.ok.inj planned
    subst isPlan
    revert notFull
    generalize chainStrategy libs job listed readSidecar now strat = chosen
    intro notFull
    by_cases full : chosen = .full
    · simp [full] at notFull
    · have position : startPosition libs job listed readSidecar chosen =
          findLastPosition libs.positionSort listed readSidecar job.id chosen := by
        simp [startPosition, full, anchored]
      simp only [position, anchored, full, ne_eq, not_false_eq_true, true_and] at notFull ⊢
      by_cases empty :
          findLastPosition libs.positionSort listed readSidecar job.id chosen = ""
      · simp [empty] at notFull
      · simp [empty]

theorem planRun_baseAndPosition_iff (libs : Libraries) (job : Job) (support : Support) (st : Store)
    (now : Instant) (plan : Plan)
    (planned : planRun libs job support (some st.entries) st.readSidecar now = .ok plan)
    (notFull : plan.strategy ≠ .full) (anchored : positionAnchored job.type = true) :
    BaseAndPositionAgree st job.id plan ↔ PositionsFollowBase st job.id plan.strategy := by
  obtain ⟨hasPosition, isSince, isBase⟩ := planRun_increment planned notFull anchored
  exact baseAndPositionAgree_iff libs.positionSort job st notFull isBase isSince hasPosition

/-! ### A backup without a position -/

def anchoredJob : Job where
  type := "mysql"
  host := "db1"
  databases := ["app"]
  strategy := .incremental

def fullAlone : Store where
  entries := [{ path := "mysql-app-db1-full-20260101-000000.sql", modTime := 1 }]
  readSidecar path :=
    if path = "mysql-app-db1-full-20260101-000000.sql" then
      some { strategy := "full", position := "binlog.000007:154" }
    else none
  distinct := by decide

/-- The position of the increment could not be read when it was taken. -/
def positionMissing : Store where
  entries := [
    { path := "mysql-app-db1-full-20260101-000000.sql", modTime := 1 },
    { path := "mysql-app-db1-incr-20260102-000000.sql", modTime := 2 }]
  readSidecar path :=
    if path = "mysql-app-db1-full-20260101-000000.sql" then
      some { strategy := "full", position := "binlog.000007:154" }
    else if path = "mysql-app-db1-incr-20260102-000000.sql" then
      some { strategy := "incremental", base := "mysql-app-db1-full-20260101-000000.sql" }
    else none
  distinct := by decide

def nextPlan (base : String) : Plan where
  strategy := .incremental
  since := "binlog.000007:154"
  filename := "mysql-app-db1-incr-20260103-000000.sql"
  base := base

def thirdOfJanuary : Instant := { nanos := 1767398400 * second }

theorem planRun_fullAlone :
    planRun weekLibraries anchoredJob {} (some fullAlone.entries) fullAlone.readSidecar
      thirdOfJanuary = .ok (nextPlan "mysql-app-db1-full-20260101-000000.sql") := by
  decide +kernel

theorem planRun_baseAndPosition_fullAlone :
    planRun weekLibraries anchoredJob {} (some fullAlone.entries) fullAlone.readSidecar
        thirdOfJanuary = .ok (nextPlan "mysql-app-db1-full-20260101-000000.sql") ∧
      (BaseAndPositionAgree fullAlone anchoredJob.id
          (nextPlan "mysql-app-db1-full-20260101-000000.sql") ↔
        PositionsFollowBase fullAlone anchoredJob.id .incremental) :=
  ⟨planRun_fullAlone,
    planRun_baseAndPosition_iff weekLibraries anchoredJob {} fullAlone thirdOfJanuary
      (nextPlan "mysql-app-db1-full-20260101-000000.sql") planRun_fullAlone (by decide)
      (by decide)⟩

/-- The base is the increment without a position; the changes are read from the
position of the full backup before it. -/
theorem base_and_position_apart :
    planRun weekLibraries anchoredJob {} (some positionMissing.entries) positionMissing.readSidecar
        thirdOfJanuary = .ok (nextPlan "mysql-app-db1-incr-20260102-000000.sql") ∧
      ¬ BaseAndPositionAgree positionMissing anchoredJob.id
        (nextPlan "mysql-app-db1-incr-20260102-000000.sql") := by
  refine ⟨by decide +kernel, ?_⟩
  rintro ⟨entry, _, samePath, _, sc, read, sinceIs⟩
  have base : entry.path = "mysql-app-db1-incr-20260102-000000.sql" := samePath.symm
  rw [base] at read
  have noPosition : sc.position = "" := by
    rw [← Option.some.inj read]
  rw [noPosition] at sinceIs
  exact absurd sinceIs (by decide)

end DbBackup.Runner.Chain
