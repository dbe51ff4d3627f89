import DbBackup.Retention.Tiers

/-!
Owns what a second prune does.

Contract: chain members are read off the whole list, the backups about to be
deleted included. A prune is therefore final when every chain member it kept is
still one among the survivors or kept by another rule, and without tiers only
then; a chain that expires as a whole is given up link by link, and as many
prunes as there are backups always suffice (`prune_settles`).
-/

set_option linter.all false

namespace DbBackup.Retention

open Lib Lib.Selection Lib.Sorting Lib.Time Lib.LinkGraph

/-- The backups a prune leaves over. -/
def prune (env : RetentionEnv) (policy : RetentionPolicy) (now : Instant)
    (backups : List BackupEntry) : List BackupEntry :=
  backups.filter fun b => b.fileName ∉ applyRetentionAt env backups policy now

def DistinctTimes (backups : List BackupEntry) : Prop :=
  (backups.map fun b => b.timestamp.nanos).Nodup

instance (backups : List BackupEntry) : Decidable (DistinctTimes backups) :=
  inferInstanceAs (Decidable (List.Nodup _))

def clockOr (env : RetentionEnv) (now : Instant) : Instant :=
  if now.isZero then env.clock else now

/-- Every chain member of the list is a chain member of what the prune leaves
over, or kept for its age or its rank. -/
def StillNeeded (env : RetentionEnv) (policy : RetentionPolicy) (now : Instant)
    (backups : List BackupEntry) : Prop :=
  ∀ b ∈ backups, b.fileName ∈ chainDependencies backups →
    b.fileName ∈ chainDependencies (prune env policy now backups) ∨
      (0 < policy.within ∧ insideWindow policy (clockOr env now) b = true) ∨
      b ∈ (env.sort.run backups).take policy.last.toNat

/-! ### Order does not matter -/

theorem findBase_perm {backups others : List BackupEntry} (distinct : DistinctNames backups)
    (same : others.Perm backups) (name : String) : findBase others name = findBase backups name := by
  cases found : findBase backups name with
  | some base =>
    obtain ⟨b, member, rfl, rfl⟩ := findBase_eq_some found
    exact findBase_of_mem (distinct.perm same) (same.mem_iff.mpr member)
  | none =>
    cases other : findBase others name with
    | none => rfl
    | some base =>
      obtain ⟨b, member, rfl, -⟩ := findBase_eq_some other
      rw [findBase_of_mem distinct (same.mem_iff.mp member)] at found
      cases found

theorem chainDependencies_perm {backups others : List BackupEntry}
    (distinct : DistinctNames backups) (same : others.Perm backups) :
    chainDependencies others = chainDependencies backups := by
  have links : nextBase others = nextBase backups := by
    funext name
    unfold nextBase
    rw [findBase_perm distinct same]
  ext name
  rw [mem_chainDependencies_iff, mem_chainDependencies_iff, links]
  constructor
  · rintro ⟨b, member, rest⟩
    exact ⟨b, same.mem_iff.mp member, rest⟩
  · rintro ⟨b, member, rest⟩
    exact ⟨b, same.mem_iff.mpr member, rest⟩

theorem run_filter_of_distinct (sort : SliceSort newer) {backups : List BackupEntry}
    (distinct : DistinctTimes backups) (keep : BackupEntry → Bool) :
    sort.run (backups.filter keep) = (sort.run backups).filter keep := by
  apply sort.run_filter
  intro a aMember b bMember notNewer notOlder
  have sameTime : a.timestamp.nanos = b.timestamp.nanos := by
    have first := of_decide_eq_false notNewer
    have second := of_decide_eq_false notOlder
    omega
  exact List.inj_on_of_nodup_map distinct aMember bMember sameTime

/-! ### The rules before the tiers -/

/-- What is kept when the tiers begin. -/
def keptEarly (policy : RetentionPolicy) (now : Instant) (sorted : List BackupEntry) :
    Finset String :=
  keepLast policy sorted (keepWithin policy now sorted (keepNeeded sorted))

variable {policy : RetentionPolicy} {sorted : List BackupEntry} {name : String}

theorem mem_keepLast_iff {kept : Finset String} : name ∈ keepLast policy sorted kept ↔
      name ∈ kept ∨ ∃ b ∈ sorted.take policy.last.toNat, b.fileName = name := by
  unfold keepLast
  split
  · rw [Finset.mem_union, mem_names]
  · rename_i notPositive
    have none : policy.last.toNat = 0 := by omega
    simp [none]

theorem mem_keepWithin_iff {now : Instant} {kept : Finset String} :
    name ∈ keepWithin policy now sorted kept ↔
      name ∈ kept ∨ ∃ b ∈ sorted, (0 < policy.within ∧ insideWindow policy now b = true) ∧
        b.fileName = name := by
  unfold keepWithin
  split
  · rename_i positive
    simp [positive, and_assoc]
  · rename_i notPositive
    simp [notPositive]

theorem mem_keptEarly_iff {now : Instant}  : name ∈ keptEarly policy now sorted ↔
      ∃ b ∈ sorted, b.fileName = name ∧
        (b.fileName ∈ chainDependencies sorted ∨
          (0 < policy.within ∧ insideWindow policy now b = true) ∨
          b ∈ sorted.take policy.last.toNat) := by
  unfold keptEarly
  rw [mem_keepLast_iff, mem_keepWithin_iff]
  constructor
  · rintro ((isNeeded | ⟨b, member, inside, isName⟩) | ⟨b, newest, isName⟩)
    · obtain ⟨b, inFilter, isName⟩ := mem_names.mp isNeeded
      obtain ⟨member, needed⟩ := List.mem_filter.mp inFilter
      exact ⟨b, member, isName, .inl (of_decide_eq_true needed)⟩
    · exact ⟨b, member, isName, .inr (.inl inside)⟩
    · exact ⟨b, List.mem_of_mem_take newest, isName, .inr (.inr newest)⟩
  · rintro ⟨b, member, isName, needed | inside | newest⟩
    · refine .inl (.inl (mem_names.mpr ⟨b, List.mem_filter.mpr ⟨member, ?_⟩, isName⟩))
      exact decide_eq_true needed
    · exact .inl (.inr ⟨b, member, inside, isName⟩)
    · exact .inr ⟨b, newest, isName⟩

/-- Where the newest backups pass a test, they are the newest that pass it. -/
theorem take_filter_of_all {α : Type} (keep : α → Bool) (count : Nat) (items : List α)
    (all : ∀ item ∈ items.take count, keep item = true) :
    (items.filter keep).take count = items.take count := by
  induction items generalizing count with
  | nil => rfl
  | cons item rest ih =>
    cases count with
    | zero => simp
    | succ count =>
      have isKept := all item (by simp)
      rw [List.filter_cons_of_pos isKept, List.take_succ_cons, List.take_succ_cons,
        ih count fun other member => all other (by simp [member])]

/-! ### The tiers on what is left -/

/-- On the part of the list that a tier keeps, with no less kept before, the
tier keeps no less. -/
theorem applyTier_part {n : Int} {key : Instant → List Int}
    (distinct : DistinctNames sorted) {kept others final : Finset String} (subset : kept ⊆ others)
    (part : applyTier n key sorted kept ⊆ final) :
    applyTier n key sorted kept ⊆
      applyTier n key (sorted.filter fun b => b.fileName ∈ final) others := by
  intro name member
  have inFinal := part member
  rw [applyTier_eq n key distinct, Finset.mem_union] at member
  rw [applyTier_eq n key (distinct.filter _), Finset.mem_union]
  rcases member with isKept | isPicked
  · exact .inl (subset isKept)
  · obtain ⟨b, picked, rfl⟩ := mem_names.mp isPicked
    by_cases known : b.fileName ∈ others
    · exact .inl known
    · refine .inr (mem_names.mpr ⟨b, ?_, rfl⟩)
      rw [List.filter_filter]
      refine mem_pick_filter (Nat.le_refl _) (fun other _ passes => ?_) ?_ picked
      · have notOther : other.fileName ∉ others := by
          simpa [notIn] using (Bool.and_eq_true_iff.mp passes).1
        simpa [notIn] using fun isKept => notOther (subset isKept)
      · simp [notIn, known, inFinal]

theorem foldl_applyTier_part (rows : List (Int × (Instant → List Int)))
    (distinct : DistinctNames sorted)
    {kept others final : Finset String} (subset : kept ⊆ others)
    (part : rows.foldl (fun kept tier => applyTier tier.1 tier.2 sorted kept) kept ⊆ final) :
    rows.foldl (fun kept tier => applyTier tier.1 tier.2 sorted kept) kept ⊆
      rows.foldl (fun kept tier => applyTier tier.1 tier.2
        (sorted.filter fun b => b.fileName ∈ final) kept) others := by
  induction rows generalizing kept others with
  | nil => exact subset
  | cons tier rest ih =>
    rw [List.foldl_cons] at part
    rw [List.foldl_cons, List.foldl_cons]
    have first := (subset_foldl_applyTier sorted rest _).trans part
    exact ih (applyTier_part distinct subset first) part

/-- Either edition's hook. -/
def Installed (env : RetentionEnv) : Prop := env.hook = applyTiers ∨ env.hook = noopTierHook

theorem hook_part {env : RetentionEnv} (installed : Installed env) {policy : RetentionPolicy}
    {sorted : List BackupEntry} (distinct : DistinctNames sorted) {kept others : Finset String}
    (subset : kept ⊆ others) :
    env.hook.run sorted policy kept ⊆
      env.hook.run (sorted.filter fun b => b.fileName ∈ env.hook.run sorted policy kept)
        policy others := by
  rcases installed with tiered | plain
  · rw [tiered]
    exact foldl_applyTier_part (tiers policy) distinct subset (Finset.Subset.refl _)
  · rw [plain]
    exact subset

theorem hook_without_tiers {env : RetentionEnv} (installed : Installed env)
    (noTiers : policy.hasGFS = false) (sorted : List BackupEntry)
    (kept : Finset String) : env.hook.run sorted (licensedPolicy env policy) kept = kept := by
  have licensed : licensedPolicy env policy = policy := by
    unfold licensedPolicy checkPrune
    simp [noTiers]
  rcases installed with tiered | plain
  · rw [licensed, tiered]
    unfold RetentionPolicy.hasGFS at noTiers
    simp only [Bool.or_eq_false_iff, decide_eq_false_iff_not, Int.not_lt] at noTiers
    obtain ⟨⟨⟨⟨hourly, daily⟩, weekly⟩, monthly⟩, yearly⟩ := noTiers
    show runTiers sorted policy kept = kept
    simp [runTiers, tiers, applyTier, hourly, daily, weekly, monthly, yearly]
  · rw [plain]
    rfl

/-! ### The second prune -/

section SecondPrune

variable {env : RetentionEnv} {policy : RetentionPolicy} {now : Instant} {backups : List BackupEntry}

theorem prune_eq : prune env policy now backups = backups.filter fun b =>
    b.fileName ∈ keptNames env (env.sort.run backups) policy (clockOr env now) := by
  apply List.filter_congr
  intro b member
  rw [decide_eq_decide, mem_applyRetentionAt_iff]
  constructor
  · intro notReturned
    by_contra missing
    exact notReturned ⟨⟨b, member, rfl⟩, missing⟩
  · exact fun isKept returned => returned.2 isKept

theorem run_prune (times : DistinctTimes backups) :
    env.sort.run (prune env policy now backups) = (env.sort.run backups).filter fun b =>
      b.fileName ∈ keptNames env (env.sort.run backups) policy (clockOr env now) := by
  rw [prune_eq, run_filter_of_distinct env.sort times]

theorem applyRetentionAt_eq_nil_iff : applyRetentionAt env backups policy now = [] ↔
    ∀ b ∈ backups, b.fileName ∈ keptNames env (env.sort.run backups) policy (clockOr env now) := by
  rw [List.eq_nil_iff_forall_not_mem]
  constructor
  · intro nothing b member
    by_contra missing
    refine nothing b.fileName ((mem_applyRetentionAt_iff ..).mpr ⟨⟨b, member, rfl⟩, missing⟩)
  · intro all name returned
    obtain ⟨⟨b, member, rfl⟩, missing⟩ := (mem_applyRetentionAt_iff ..).mp returned
    exact missing (all b member)

theorem DistinctNames.prune (distinct : DistinctNames backups) :
    DistinctNames (prune env policy now backups) :=
  distinct.filter _

theorem keptEarly_subset_keptNames (sorted : List BackupEntry) (now : Instant) :
    keptEarly policy now sorted ⊆ keptNames env sorted policy now :=
  env.hook.adds _ _ _

/-- The newest backups are kept, so they are the newest of what is left. -/
theorem take_run_prune (times : DistinctTimes backups) :
    (env.sort.run (prune env policy now backups)).take policy.last.toNat =
      (env.sort.run backups).take policy.last.toNat := by
  rw [run_prune times]
  apply take_filter_of_all
  intro b newest
  refine decide_eq_true (keptEarly_subset_keptNames _ _ (mem_keptEarly_iff.mpr ?_))
  exact ⟨b, List.mem_of_mem_take newest, rfl, .inr (.inr newest)⟩

/-- What is kept early the first time is kept early the second time, if the
chain members are. -/
theorem keptEarly_prune (distinct : DistinctNames backups) (times : DistinctTimes backups)
    (still : StillNeeded env policy now backups) :
    keptEarly policy (clockOr env now) (env.sort.run backups) ⊆
      keptEarly policy (clockOr env now) (env.sort.run (prune env policy now backups)) := by
  intro name member
  have inKept := @keptEarly_subset_keptNames env _ _ _ _ member
  obtain ⟨b, inSorted, rfl, why⟩ := mem_keptEarly_iff.mp member
  have survives : b ∈ env.sort.run (prune env policy now backups) := by
    rw [run_prune times]
    exact List.mem_filter.mpr ⟨inSorted, decide_eq_true inKept⟩
  refine mem_keptEarly_iff.mpr ⟨b, survives, rfl, ?_⟩
  have samePerm := env.sort.perm (prune env policy now backups)
  rw [take_run_prune times, chainDependencies_perm distinct.prune samePerm]
  rcases why with needed | inside | newest
  · rw [chainDependencies_perm distinct (env.sort.perm backups)] at needed
    exact still b (env.sort.mem_run.mp inSorted) needed
  · exact .inr (.inl inside)
  · exact .inr (.inr newest)

theorem settled_of_stillNeeded (installed : Installed env) (distinct : DistinctNames backups)
    (times : DistinctTimes backups) (still : StillNeeded env policy now backups) :
    applyRetentionAt env (prune env policy now backups) policy now = [] := by
  rw [applyRetentionAt_eq_nil_iff]
  intro b member
  have inKept : b.fileName ∈ keptNames env (env.sort.run backups) policy (clockOr env now) := by
    rw [prune_eq] at member
    exact of_decide_eq_true (List.mem_filter.mp member).2
  have early := keptEarly_prune distinct times still
  have tiered := @hook_part env installed (licensedPolicy env policy) _
    (distinct.perm (env.sort.perm backups)) _ _ early
  have same : keptNames env (env.sort.run (prune env policy now backups)) policy (clockOr env now) =
      env.hook.run (env.sort.run (prune env policy now backups)) (licensedPolicy env policy)
        (keptEarly policy (clockOr env now) (env.sort.run (prune env policy now backups))) := rfl
  rw [same]
  rw [run_prune times] at tiered ⊢
  exact tiered inKept

theorem stillNeeded_of_settled (installed : Installed env) (noTiers : policy.hasGFS = false)
    (distinct : DistinctNames backups) (times : DistinctTimes backups)
    (settled : applyRetentionAt env (prune env policy now backups) policy now = []) :
    StillNeeded env policy now backups := by
  intro b member needed
  have early : b.fileName ∈ keptEarly policy (clockOr env now) (env.sort.run backups) := by
    refine mem_keptEarly_iff.mpr ⟨b, env.sort.mem_run.mpr member, rfl, .inl ?_⟩
    rwa [chainDependencies_perm distinct (env.sort.perm backups)]
  have survives : b ∈ prune env policy now backups := by
    rw [prune_eq]
    exact List.mem_filter.mpr ⟨member, decide_eq_true (keptEarly_subset_keptNames _ _ early)⟩
  have again := applyRetentionAt_eq_nil_iff.mp settled b survives
  unfold keptNames at again
  rw [hook_without_tiers installed noTiers] at again
  obtain ⟨other, inSorted, sameName, why⟩ := mem_keptEarly_iff.mp again
  have sameBackup : other = b :=
    List.inj_on_of_nodup_map distinct.prune (env.sort.mem_run.mp inSorted) survives sameName
  rw [sameBackup, take_run_prune times,
    chainDependencies_perm distinct.prune (env.sort.perm _)] at why
  exact why

theorem iterate_prune_settles (count : Nat) (few : backups.length ≤ count) :
    applyRetentionAt env ((prune env policy now)^[count] backups) policy now = [] := by
  induction count generalizing backups with
  | zero =>
    rw [Function.iterate_zero, id, List.length_eq_zero_iff.mp (Nat.le_zero.mp few)]
    rfl
  | succ count ih =>
    rw [Function.iterate_succ_apply]
    by_cases settled : applyRetentionAt env backups policy now = []
    · -- Nothing is deleted any more, so the list stays as it is.
      have fixed : prune env policy now backups = backups := by
        unfold prune
        rw [settled]
        simp
      rw [fixed, Function.iterate_fixed fixed]
      exact settled
    · apply ih
      obtain ⟨name, returned⟩ := List.exists_mem_of_ne_nil _ settled
      obtain ⟨⟨b, member, rfl⟩, -⟩ := (mem_applyRetentionAt_iff ..).mp returned
      have shorter : (prune env policy now backups).length < backups.length := by
        unfold prune
        rw [List.length_filter_lt_length_iff_exists]
        exact ⟨b, member, by simpa using returned⟩
      omega

end SecondPrune

/-- A second prune returns nothing if every chain member the first one kept is
still needed by a survivor or kept for its age or rank, without tiers only
then, and as many prunes as there are backups return nothing in the end. -/
theorem prune_settles (env : RetentionEnv) (installed : Installed env)
    (backups : List BackupEntry) (distinct : DistinctNames backups)
    (times : DistinctTimes backups) (policy : RetentionPolicy) (now : Instant) :
    (StillNeeded env policy now backups →
        applyRetentionAt env (prune env policy now backups) policy now = []) ∧
      (policy.hasGFS = false →
        (applyRetentionAt env (prune env policy now backups) policy now = [] ↔
          StillNeeded env policy now backups)) ∧
      applyRetentionAt env ((prune env policy now)^[backups.length] backups) policy now = [] := by
  refine ⟨settled_of_stillNeeded installed distinct times, fun noTiers => ⟨?_, ?_⟩,
    iterate_prune_settles backups.length (Nat.le_refl _)⟩
  · exact stillNeeded_of_settled installed noTiers distinct times
  · exact settled_of_stillNeeded installed distinct times

/-- A newer full backup beside a chain. -/
def sampleNewer : BackupEntry where
  fileName := "mysql-app-db-full-20240103-000000.sql"
  timestamp := { nanos := 1704240000 * second }
  strategy := "full"

theorem prune_settles_sample :
    applyRetentionAt sampleEnv ((prune sampleEnv { last := 1 } sampleEnv.clock)^[3]
      [sampleFull, sampleIncremental, sampleNewer]) { last := 1 } sampleEnv.clock = [] :=
  (prune_settles sampleEnv (.inl rfl) [sampleFull, sampleIncremental, sampleNewer] (by decide)
    (by decide) { last := 1 } sampleEnv.clock).2.2

/-- The incremental backup goes with the first prune, its base with the second. -/
theorem prune_not_idempotent :
    DistinctNames [sampleFull, sampleIncremental, sampleNewer] ∧
      DistinctTimes [sampleFull, sampleIncremental, sampleNewer] ∧
      applyRetentionAt sampleEnv [sampleFull, sampleIncremental, sampleNewer] { last := 1 }
        sampleEnv.clock = [sampleIncremental.fileName] ∧
      applyRetentionAt sampleEnv (prune sampleEnv { last := 1 } sampleEnv.clock
        [sampleFull, sampleIncremental, sampleNewer]) { last := 1 } sampleEnv.clock =
          [sampleFull.fileName] := by
  decide +kernel

end DbBackup.Retention
