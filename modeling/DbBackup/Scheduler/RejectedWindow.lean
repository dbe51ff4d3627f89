import DbBackup.Retention.Prune
import DbBackup.Retention.Tiers
import DbBackup.Scheduler.PostBackup

/-!
Owns what a prune does when `ParseWithin` rejects a window that means something:
`retentionPolicy` drops the window and prunes by the rest of the policy
(`internal/scheduler/retention.go`).

Contract: that deletes nothing the window would have kept exactly if nothing else
of the policy is in force, or the window had nothing of its own to keep
(`rejectedWindow_iff`).

The installed tier hook goes with the edition, and one license answers for
windows and tiers.
-/

namespace DbBackup.Scheduler

open Lib.Sorting Lib.Time Retention Storage

variable {σ : Type}

/-- The environment of a prune in an edition. -/
def pruneEnv (edition : WithinEnv) (sort : SliceSort newer) (clock : Instant) : RetentionEnv where
  sort := sort
  hook := if edition.supported then applyTiers else noopTierHook
  allowRetention := edition.allowRetention
  clock := clock

/-- The policy with the window the text stands for. -/
def meantPolicy (rest : RetentionPolicy) (window : Int) : RetentionPolicy :=
  { rest with within := window }

/-- What the rules other than the window and the tiers keep. -/
def keptAnyway (sorted : List BackupEntry) (rest : RetentionPolicy) : Finset String :=
  keepLast rest sorted (keepNeeded sorted)

def windowNames (sorted : List BackupEntry) (rest : RetentionPolicy) (window : Int)
    (clock : Instant) : Finset String :=
  names (sorted.filter (insideWindow (meantPolicy rest window) clock))

/-- The supported edition runs the tiers of a policy if it is licensed. -/
def tiersInForce (edition : WithinEnv) (rest : RetentionPolicy) : Bool :=
  edition.supported && edition.allowRetention && rest.hasGFS

/-- Nothing is lost with the window: the rest of the policy is not in force, or
keeps what lies in the window, or its tiers keep as much as they would on top of
the window. -/
def WindowDispensable (edition : WithinEnv) (sort : SliceSort newer) (clock : Instant)
    (backups : List BackupEntry) (rest : RetentionPolicy) (window : Int) : Prop :=
  (licensedPolicy (pruneEnv edition sort clock) rest).valid = false ∨
  windowNames (sort.run backups) rest window clock ⊆ keptAnyway (sort.run backups) rest ∨
  tiersInForce edition rest = true ∧
    ∀ b ∈ backups,
      b.fileName ∈ runTiers (sort.run backups) rest
        (keptAnyway (sort.run backups) rest ∪ windowNames (sort.run backups) rest window clock) →
      b.fileName ∈ runTiers (sort.run backups) rest (keptAnyway (sort.run backups) rest)

/-- The prune deletes nothing that it keeps with the window. -/
def DeletesNoMore (env : RetentionEnv) (store : Store) (rest : RetentionPolicy) (window : Int) :
    Prop :=
  ∀ name ∈ Retention.applyPrune env store rest,
    name ∈ Retention.applyPrune env store (meantPolicy rest window)

/-! ### What is kept -/

theorem runTiers_of_noGFS {policy : RetentionPolicy} (none : policy.hasGFS = false)
    (backups : List BackupEntry) (kept : Finset String) : runTiers backups policy kept = kept := by
  unfold RetentionPolicy.hasGFS at none
  simp only [Bool.or_eq_false_iff, decide_eq_false_iff_not, not_lt] at none
  obtain ⟨⟨⟨⟨hourly, daily⟩, weekly⟩, monthly⟩, yearly⟩ := none
  simp [runTiers, tiers, applyTier, hourly, daily, weekly, monthly, yearly]

/-- The hook with the license: the tiers if they are in force, and nothing else. -/
theorem hook_run (edition : WithinEnv) (sort : SliceSort newer) (clock : Instant)
    (rest : RetentionPolicy) (window : Int) (sorted : List BackupEntry) (kept : Finset String) :
    (pruneEnv edition sort clock).hook.run sorted
        (licensedPolicy (pruneEnv edition sort clock) (meantPolicy rest window)) kept =
      if tiersInForce edition rest then runTiers sorted rest kept else kept := by
  have stripped : runTiers sorted (meantPolicy rest window).stripTiers kept = kept :=
    runTiers_of_noGFS rfl sorted kept
  have sameTiers : runTiers sorted (meantPolicy rest window) kept = runTiers sorted rest kept := rfl
  have sameGFS : (meantPolicy rest window).hasGFS = rest.hasGFS := rfl
  unfold pruneEnv tiersInForce licensedPolicy checkPrune
  cases edition.supported with
  | false => rfl
  | true =>
    simp only [if_true, Bool.true_and, sameGFS]
    cases gfs : rest.hasGFS with
    | false =>
      simp only [Bool.and_false, Bool.not_false, Bool.true_or, if_true]
      exact runTiers_of_noGFS (sameGFS.trans gfs) sorted kept
    | true =>
      cases edition.allowRetention with
      | true => exact sameTiers
      | false => exact stripped

variable {edition : WithinEnv} {sort : SliceSort newer} {clock : Instant} {rest : RetentionPolicy}

theorem keptNames_meant {window : Int} (sorted : List BackupEntry) (isWindow : 0 < window) :
    keptNames (pruneEnv edition sort clock) sorted (meantPolicy rest window) clock =
      if tiersInForce edition rest then
        runTiers sorted rest (keptAnyway sorted rest ∪ windowNames sorted rest window clock)
      else keptAnyway sorted rest ∪ windowNames sorted rest window clock := by
  have base : keepLast (meantPolicy rest window) sorted
      (keepWithin (meantPolicy rest window) clock sorted (keepNeeded sorted)) =
      keptAnyway sorted rest ∪ windowNames sorted rest window clock := by
    unfold keptAnyway windowNames keepWithin keepLast
    simp only [meantPolicy, isWindow, if_true]
    split
    · rw [Finset.union_right_comm]
    · rfl
  unfold keptNames
  rw [base, hook_run]

theorem keptNames_rest (sorted : List BackupEntry) (noWindow : rest.within = 0) :
    keptNames (pruneEnv edition sort clock) sorted rest clock =
      if tiersInForce edition rest then runTiers sorted rest (keptAnyway sorted rest)
      else keptAnyway sorted rest := by
  have same : meantPolicy rest 0 = rest := by
    unfold meantPolicy
    rw [← noWindow]
  have base : keepWithin rest clock sorted (keepNeeded sorted) = keepNeeded sorted := by
    simp [keepWithin, noWindow]
  unfold keptNames
  rw [base]
  have hooked := hook_run edition sort clock rest 0 sorted (keptAnyway sorted rest)
  rw [same] at hooked
  exact hooked

/-! ### Prunes -/

theorem applyPrune_of_not_acts {env : RetentionEnv} {store : Store} {policy : RetentionPolicy}
    (idle : (licensedPolicy env policy).valid = false) : Retention.applyPrune env store policy = [] := by
  unfold Retention.applyPrune
  unfold licensedPolicy at idle
  cases licensed : checkPrune env policy with
  | true =>
    rw [licensed, if_pos rfl] at idle
    simp [idle]
  | false =>
    rw [licensed, if_neg Bool.false_ne_true] at idle
    simp [idle]

theorem meantPolicy_valid {env : RetentionEnv} {rest : RetentionPolicy} {window : Int}
    (isWindow : 0 < window) : (licensedPolicy env (meantPolicy rest window)).valid = true := by
  have kept : (licensedPolicy env (meantPolicy rest window)).within = window := by
    unfold licensedPolicy
    split <;> rfl
  simp [RetentionPolicy.valid, kept, isWindow]

theorem mem_applyPrune_iff {env : RetentionEnv} {store : Store} {policy : RetentionPolicy}
    (acts : (licensedPolicy env policy).valid = true) (name : String) :
    name ∈ Retention.applyPrune env store policy ↔
      (∃ b ∈ listBackupsWithSidecars store, b.fileName = name) ∧
        name ∉ keptNames env (env.sort.run (listBackupsWithSidecars store)) policy env.clock := by
  rw [applyPrune_eq env store policy acts, mem_applyRetentionAt_iff]
  cases env.clock.isZero <;> rfl

/-- A prune without its window deletes no more than one with it, exactly if the
window is dispensable. -/
theorem deletesNoMore_iff {store : Store} {window : Int} (isWindow : 0 < window)
    (noWindow : rest.within = 0) :
    DeletesNoMore (pruneEnv edition sort clock) store rest window ↔
      WindowDispensable edition sort clock (listBackupsWithSidecars store) rest window := by
  unfold DeletesNoMore WindowDispensable
  cases acts : (licensedPolicy (pruneEnv edition sort clock) rest).valid with
  | false =>
    simp [applyPrune_of_not_acts acts]
  | true =>
    have meant := @mem_applyPrune_iff _ store _
      (@meantPolicy_valid (pruneEnv edition sort clock) rest window isWindow)
    have bare := @mem_applyPrune_iff _ store _ acts
    have sorted : (pruneEnv edition sort clock).sort = sort := rfl
    have clocked : (pruneEnv edition sort clock).clock = clock := rfl
    rw [sorted, clocked] at meant bare
    have keeps : (∀ name ∈ Retention.applyPrune (pruneEnv edition sort clock) store rest,
          name ∈ Retention.applyPrune (pruneEnv edition sort clock) store (meantPolicy rest window)) ↔
        ∀ b ∈ listBackupsWithSidecars store,
          b.fileName ∈ keptNames (pruneEnv edition sort clock)
            (sort.run (listBackupsWithSidecars store)) (meantPolicy rest window) clock →
          b.fileName ∈ keptNames (pruneEnv edition sort clock)
            (sort.run (listBackupsWithSidecars store)) rest clock := by
      constructor
      · intro noMore b listed kept
        by_contra deleted
        exact ((meant _).mp (noMore _ ((bare _).mpr ⟨⟨b, listed, rfl⟩, deleted⟩))).2 kept
      · intro asMuch name deleted
        obtain ⟨⟨b, listed, rfl⟩, notKept⟩ := (bare name).mp deleted
        exact (meant _).mpr ⟨⟨b, listed, rfl⟩, fun kept => notKept (asMuch b listed kept)⟩
    rw [keeps, keptNames_meant _ isWindow, keptNames_rest _ noWindow]
    simp only [Bool.true_eq_false, false_or]
    cases tiersInForce edition rest with
    | true =>
      simp only [if_true, true_and]
      refine ⟨Or.inr, ?_⟩
      rintro (inside | asMuch)
      · rw [Finset.union_eq_left.mpr inside]
        exact fun _ _ kept => kept
      · exact asMuch
    | false =>
      simp only [Bool.false_eq_true, if_false, false_and, or_false]
      constructor
      · intro asMuch name inside
        obtain ⟨b, isIn, rfl⟩ := mem_names.mp inside
        have listed := (sort.mem_run).mp (List.mem_filter.mp isIn).1
        exact asMuch b listed (Finset.mem_union_right _ inside)
      · intro inside b _ kept
        rcases Finset.mem_union.mp kept with anyway | window
        · exact anyway
        · exact inside window

theorem retentionPolicy_rejected {env : SchedulerEnv σ} {ret : RetentionConfig}
    {error : DurationError} (rejected : parseWithin env.within ret.within = .error error) :
    (retentionPolicy env ret).within = 0 := by
  simp [retentionPolicy, rejected]

/-- A window that is rejected although it means something costs no backup, exactly
if it is dispensable. -/
theorem rejectedWindow_iff {env : SchedulerEnv σ} {ret : RetentionConfig} {n unit : Int}
    {error : DurationError} (means : denotes ret.within = some (n, unit)) (positive : 0 < n)
    (rejected : parseWithin env.within ret.within = .error error) (sort : SliceSort newer)
    (clock : Instant) (store : Store) :
    DeletesNoMore (pruneEnv env.within sort clock) store (retentionPolicy env ret) (n * unit) ↔
      WindowDispensable env.within sort clock (listBackupsWithSidecars store)
        (retentionPolicy env ret) (n * unit) :=
  deletesNoMore_iff (Int.mul_pos positive (denotes_unit_pos means))
    (retentionPolicy_rejected rejected)

/-- The supported edition after its license has lapsed. -/
def lapsed : SchedulerEnv Unit where
  within := { supported := true, allowRetention := false }
  checkArchive := false
  storagePath := "/backup"
  new _ _ := none
  moved _ _ _ _ := 0

/-- A policy of nothing but a window prunes nothing without it. -/
theorem rejectedWindow_alone :
    DeletesNoMore (pruneEnv lapsed.within sampleEnv.sort sampleEnv.clock) sharedStore
      (retentionPolicy lapsed { within := "7d" }) (7 * day) :=
  (@rejectedWindow_iff _ lapsed { within := "7d" } 7 day .license (by decide +kernel) (by decide)
    (by decide +kernel) _ _ _).mpr (Or.inl (by decide +kernel))

/-- With `last: 1` beside a rejected `within: 7d`, a backup of the day before
yesterday is deleted. -/
theorem rejectedWindow_deletes :
    parseWithin lapsed.within "7d" = .error .license ∧ denotes "7d" = some (7, day) ∧
    ¬ DeletesNoMore (pruneEnv lapsed.within sampleEnv.sort sampleEnv.clock) sharedStore
      (retentionPolicy lapsed { last := some 1, within := "7d" }) (7 * day) := by
  refine ⟨by decide +kernel, by decide +kernel, fun noMore => ?_⟩
  have deleted : appBackup.fileName ∈ Retention.applyPrune
      (pruneEnv lapsed.within sampleEnv.sort sampleEnv.clock) sharedStore
      (retentionPolicy lapsed { last := some 1, within := "7d" }) := by
    rw [applyPrune_eq _ _ _ (by decide +kernel), list_sharedStore]
    decide +kernel
  have kept := noMore _ deleted
  rw [applyPrune_eq _ _ _ (by decide +kernel), list_sharedStore] at kept
  exact absurd kept (by decide +kernel)

end DbBackup.Scheduler
