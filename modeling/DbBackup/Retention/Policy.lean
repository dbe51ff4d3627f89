import DbBackup.Lib.LinkGraph
import DbBackup.Lib.Sorting
import DbBackup.Storage.Sidecar

/-!
Owns the retention decision of `internal/retention/retention.go`: which backups
of a list `ApplyRetentionAt` gives up. The keep rules run in the source's order
(chain members, the time window, the newest `Last`, the tier hook) and each one
only adds names to `kept`.

Does not own the listing of a storage or the deletion of files.

The strategy of a listed backup is the text its sidecar holds, which nothing
validates; only `"full"` is treated apart. Maps from names to `true` are finite
sets of names. `sort.Slice` may leave backups with equal timestamps in any
order, so the sort is a parameter (`RetentionEnv.sort`), as are the installed
tier hook, the license answer and the clock.
-/

set_option linter.all false

namespace DbBackup.Retention

open Lib Lib.Sorting Lib.Time

structure BackupEntry where
  fileName : String
  timestamp : Instant
  strategy : String
  base : String := ""
  size : Int := 0
deriving DecidableEq

structure RetentionPolicy where
  last : Int := 0
  within : Int := 0
  hourly : Int := 0
  daily : Int := 0
  weekly : Int := 0
  monthly : Int := 0
  yearly : Int := 0
deriving DecidableEq

namespace RetentionPolicy

def hasGFS (policy : RetentionPolicy) : Bool :=
  0 < policy.hourly || 0 < policy.daily || 0 < policy.weekly || 0 < policy.monthly ||
    0 < policy.yearly

def valid (policy : RetentionPolicy) : Bool :=
  0 < policy.last || 0 < policy.within || policy.hasGFS

def stripTiers (policy : RetentionPolicy) : RetentionPolicy :=
  { policy with hourly := 0, daily := 0, weekly := 0, monthly := 0, yearly := 0 }

end RetentionPolicy

def names (backups : List BackupEntry) : Finset String :=
  (backups.map BackupEntry.fileName).toFinset

@[simp] theorem mem_names {backups : List BackupEntry} {name : String} :
    name ∈ names backups ↔ ∃ b ∈ backups, b.fileName = name := by
  simp [names]

/-! ### Chain members -/

def findBase (backups : List BackupEntry) (name : String) : Option String :=
  (backups.find? fun b => b.fileName = name).map BackupEntry.base

/-- The loop `for base != ""` of `chainDependencies`. Each round that goes on
marks one more listed name, so `backups.length + 1` rounds always suffice
(`mem_chainDependencies_iff` rests on this). -/
def followBases (backups : List BackupEntry) : Nat → String → Finset String → Finset String
  | 0, _, needed => needed
  | fuel + 1, base, needed =>
    if base = "" then needed
    else if base ∈ needed then needed
    else
      match findBase backups base with
      | some next => followBases backups fuel next (insert base needed)
      | none => insert base needed

def chainDependencies (backups : List BackupEntry) : Finset String :=
  backups.foldl
    (fun needed b =>
      if b.strategy = "full" then needed
      else followBases backups (backups.length + 1) b.base needed)
    ∅

/-! ### Tiers -/

/-- A tier hook in the sense of `SetTierHook` that never takes a name back. -/
structure TierHook where
  run : List BackupEntry → RetentionPolicy → Finset String → Finset String
  adds : ∀ backups policy kept, kept ⊆ run backups policy kept

def noopTierHook : TierHook where
  run _ _ kept := kept
  adds _ _ _ := Finset.Subset.refl _

structure TierState where
  kept : Finset String
  seen : Finset (List Int)

/-- One round of the loop in `applyTier`. -/
def tierStep (n : Int) (key : Instant → List Int) (state : TierState) (b : BackupEntry) :
    TierState :=
  if b.fileName ∈ state.kept then state
  else if (state.seen.card : Int) < n ∧ key b.timestamp ∉ state.seen then
    { kept := insert b.fileName state.kept, seen := insert (key b.timestamp) state.seen }
  else state

def applyTier (n : Int) (key : Instant → List Int) (backups : List BackupEntry)
    (kept : Finset String) : Finset String :=
  if n ≤ 0 then kept else (backups.foldl (tierStep n key) ⟨kept, ∅⟩).kept

-- Period keys. The source formats them as text; the numbers that are formatted
-- determine the text and are determined by it.

def hourKey (t : Instant) : List Int :=
  let whole := t.truncate hour
  [whole.year, whole.month, whole.dayOfMonth, whole.clockHour]

def dayKey (t : Instant) : List Int := [t.year, t.month, t.dayOfMonth]

def weekKey (t : Instant) : List Int := [t.isoWeek.1, t.isoWeek.2]

def monthKey (t : Instant) : List Int := [t.year, t.month]

def yearKey (t : Instant) : List Int := [t.year]

/-- The tiers of a policy in the order `applyTiers` runs them. -/
def tiers (policy : RetentionPolicy) : List (Int × (Instant → List Int)) :=
  [(policy.hourly, hourKey), (policy.daily, dayKey), (policy.weekly, weekKey),
    (policy.monthly, monthKey), (policy.yearly, yearKey)]

def runTiers (backups : List BackupEntry) (policy : RetentionPolicy) (kept : Finset String) :
    Finset String :=
  (tiers policy).foldl (fun kept tier => applyTier tier.1 tier.2 backups kept) kept

theorem kept_subset_tierStep (n : Int) (key : Instant → List Int) (state : TierState)
    (b : BackupEntry) : state.kept ⊆ (tierStep n key state b).kept := by
  unfold tierStep
  split
  · exact Finset.Subset.refl _
  · split
    · exact Finset.subset_insert _ _
    · exact Finset.Subset.refl _

theorem kept_subset_foldl_tierStep (n : Int) (key : Instant → List Int)
    (backups : List BackupEntry) (state : TierState) :
    state.kept ⊆ (backups.foldl (tierStep n key) state).kept := by
  induction backups generalizing state with
  | nil => exact Finset.Subset.refl _
  | cons b rest ih =>
    exact (kept_subset_tierStep n key state b).trans (ih _)

theorem subset_applyTier (n : Int) (key : Instant → List Int) (backups : List BackupEntry)
    (kept : Finset String) : kept ⊆ applyTier n key backups kept := by
  unfold applyTier
  split
  · exact Finset.Subset.refl _
  · exact kept_subset_foldl_tierStep n key backups ⟨kept, ∅⟩

theorem subset_foldl_applyTier (backups : List BackupEntry)
    (rows : List (Int × (Instant → List Int))) (kept : Finset String) :
    kept ⊆ rows.foldl (fun kept tier => applyTier tier.1 tier.2 backups kept) kept := by
  induction rows generalizing kept with
  | nil => exact Finset.Subset.refl _
  | cons tier rest ih =>
    exact (subset_applyTier _ _ _ _).trans (ih _)

def applyTiers : TierHook where
  run := runTiers
  adds backups policy kept := subset_foldl_applyTier backups (tiers policy) kept

/-! ### The decision -/

/-- `less` of the sort: newest first. -/
def newer (a b : BackupEntry) : Bool := a.timestamp.after b.timestamp

theorem newer_keyOrder : KeyOrder newer where
  trans a b c first following := by
    simp only [newer, Instant.after, decide_eq_false_iff_not] at *
    omega
  total a b := by
    simp only [newer, Instant.after, decide_eq_false_iff_not]
    omega

structure RetentionEnv where
  sort : SliceSort newer
  hook : TierHook
  allowRetention : Bool
  clock : Instant

/-- `CheckPrune`: without the license a policy must have no tiers. -/
def checkPrune (env : RetentionEnv) (policy : RetentionPolicy) : Bool :=
  !policy.hasGFS || env.allowRetention

def licensedPolicy (env : RetentionEnv) (policy : RetentionPolicy) : RetentionPolicy :=
  if checkPrune env policy then policy else policy.stripTiers

def keepNeeded (sorted : List BackupEntry) : Finset String :=
  names (sorted.filter fun b => b.fileName ∈ chainDependencies sorted)

/-- Backups without a timestamp are never inside the window. -/
def insideWindow (policy : RetentionPolicy) (now : Instant) (b : BackupEntry) : Bool :=
  !b.timestamp.isZero && !b.timestamp.before (now.add (-policy.within))

def keepWithin (policy : RetentionPolicy) (now : Instant) (sorted : List BackupEntry)
    (kept : Finset String) : Finset String :=
  if 0 < policy.within then kept ∪ names (sorted.filter (insideWindow policy now)) else kept

def keepLast (policy : RetentionPolicy) (sorted : List BackupEntry) (kept : Finset String) :
    Finset String :=
  if 0 < policy.last then kept ∪ names (sorted.take policy.last.toNat) else kept

/-- The names `kept` holds when `ApplyRetentionAt` collects what to delete. -/
def keptNames (env : RetentionEnv) (sorted : List BackupEntry) (policy : RetentionPolicy)
    (now : Instant) : Finset String :=
  env.hook.run sorted (licensedPolicy env policy)
    (keepLast policy sorted (keepWithin policy now sorted (keepNeeded sorted)))

def applyRetentionAt (env : RetentionEnv) (backups : List BackupEntry)
    (policy : RetentionPolicy) (now : Instant) : List String :=
  let now := if now.isZero then env.clock else now
  if backups = [] then []
  else
    let sorted := env.sort.run backups
    (sorted.filter fun b => b.fileName ∉ keptNames env sorted policy now).map
      BackupEntry.fileName

def applyRetention (env : RetentionEnv) (backups : List BackupEntry) (policy : RetentionPolicy) :
    List String :=
  applyRetentionAt env backups policy Instant.zero

theorem subset_keepWithin (policy : RetentionPolicy) (now : Instant)
    (sorted : List BackupEntry) (kept : Finset String) :
    kept ⊆ keepWithin policy now sorted kept := by
  unfold keepWithin
  split
  · exact Finset.subset_union_left
  · exact Finset.Subset.refl _

theorem subset_keepLast (policy : RetentionPolicy) (sorted : List BackupEntry)
    (kept : Finset String) : kept ⊆ keepLast policy sorted kept := by
  unfold keepLast
  split
  · exact Finset.subset_union_left
  · exact Finset.Subset.refl _

/-- No later rule takes back what an earlier one kept. -/
theorem keepNeeded_subset_keptNames (env : RetentionEnv) (sorted : List BackupEntry)
    (policy : RetentionPolicy) (now : Instant) :
    keepNeeded sorted ⊆ keptNames env sorted policy now :=
  ((subset_keepWithin policy now sorted _).trans (subset_keepLast policy sorted _)).trans
    (env.hook.adds _ _ _)

/-- A listed name is returned exactly when no rule kept it. -/
theorem mem_applyRetentionAt_iff (env : RetentionEnv) (backups : List BackupEntry)
    (policy : RetentionPolicy) (now : Instant) (name : String) :
    name ∈ applyRetentionAt env backups policy now ↔
      (∃ b ∈ backups, b.fileName = name) ∧
        name ∉ keptNames env (env.sort.run backups) policy
          (if now.isZero then env.clock else now) := by
  unfold applyRetentionAt
  by_cases empty : backups = []
  · simp [empty]
  · simp only [empty, ↓reduceIte, List.mem_map, List.mem_filter, env.sort.mem_run,
      decide_eq_true_eq]
    constructor
    · rintro ⟨b, ⟨member, notKept⟩, rfl⟩
      exact ⟨⟨b, member, rfl⟩, notKept⟩
    · rintro ⟨⟨b, member, rfl⟩, notKept⟩
      exact ⟨b, ⟨member, notKept⟩, rfl⟩

end DbBackup.Retention
