import DbBackup.Lib.Selection
import DbBackup.Retention.Chain

/-!
Owns what the tiers of a policy keep (`supported/retention/backend/tier.go`).

Contract: a tier keeps, of the backups nothing has kept before, the first one
of each of the first `n` periods (`applyTier_eq`). From this follow coverage
and bound of every tier (`applyTiers_covers`), and that a more generous policy
never gives up more (`applyRetentionAt_generous`).

Neither needs the order of the list, only that names are distinct.
-/

namespace DbBackup.Retention

open Lib Lib.Selection Lib.Time

def DistinctNames (backups : List BackupEntry) : Prop :=
  (backups.map BackupEntry.fileName).Nodup

instance (backups : List BackupEntry) : Decidable (DistinctNames backups) :=
  inferInstanceAs (Decidable (List.Nodup _))

variable {backups : List BackupEntry}

theorem DistinctNames.filter (distinct : DistinctNames backups)
    (keep : BackupEntry → Bool) : DistinctNames (backups.filter keep) :=
  distinct.sublist (List.filter_sublist.map BackupEntry.fileName)

theorem DistinctNames.perm {backups others : List BackupEntry} (distinct : DistinctNames backups)
    (same : others.Perm backups) : DistinctNames others :=
  (same.map BackupEntry.fileName).nodup_iff.mpr distinct

theorem names_cons (b : BackupEntry) (rest : List BackupEntry) :
    names (b :: rest) = insert b.fileName (names rest) := by
  simp [names]

/-! ### One tier -/

def periodOf (key : Instant → List Int) (b : BackupEntry) : List Int := key b.timestamp

def notIn (kept : Finset String) (b : BackupEntry) : Bool := b.fileName ∉ kept

theorem foldl_tierStep_kept {n : Int} (key : Instant → List Int)
    (distinct : DistinctNames backups) (state : TierState) :
    (backups.foldl (tierStep n key) state).kept =
      state.kept ∪ names (pick n.toNat (periodOf key) state.seen
        (backups.filter (notIn state.kept))) := by
  induction backups generalizing state with
  | nil => simp [pick, names]
  | cons b rest ih =>
    obtain ⟨fresh, restDistinct⟩ := List.nodup_cons.mp distinct
    have count : (state.seen.card : Int) < n ↔ state.seen.card < n.toNat := by omega
    rw [List.foldl_cons, ih restDistinct]
    by_cases isKept : b.fileName ∈ state.kept
    · rw [tierStep, if_pos isKept, List.filter_cons_of_neg (by simp [notIn, isKept])]
    · rw [List.filter_cons_of_pos (by simp [notIn, isKept]), pick, tierStep, if_neg isKept]
      by_cases taken : state.seen.card < n.toNat ∧ periodOf key b ∉ state.seen
      · have others : rest.filter (notIn (insert b.fileName state.kept)) =
            rest.filter (notIn state.kept) := by
          apply List.filter_congr
          intro other member
          have different : other.fileName ≠ b.fileName := fun same =>
            fresh (List.mem_map.mpr ⟨other, member, same⟩)
          simp [notIn, different]
        rw [if_pos ⟨count.mpr taken.1, taken.2⟩, if_pos taken, names_cons]
        simp only [others, Finset.insert_union, Finset.union_insert]
        rfl
      · rw [if_neg fun both => taken ⟨count.mp both.1, both.2⟩, if_neg taken]

/-- A tier adds the first backups of the first `n` periods among those that
are not kept yet. -/
theorem applyTier_eq (n : Int) (key : Instant → List Int)
    (distinct : DistinctNames backups) (kept : Finset String) :
    applyTier n key backups kept =
      kept ∪ names (pick n.toNat (periodOf key) ∅ (backups.filter (notIn kept))) := by
  unfold applyTier
  split
  · rename_i nothing
    have none : pick n.toNat (periodOf key) ∅ (backups.filter (notIn kept)) = [] := by
      have bound := length_pick_le n.toNat (periodOf key) ∅ (backups.filter (notIn kept))
      rw [Finset.card_empty] at bound
      exact List.eq_nil_of_length_eq_zero (by omega)
    rw [none]
    simp [names]
  · exact foldl_tierStep_kept key distinct ⟨kept, ∅⟩

/-! ### Coverage and bound -/

/-- What is kept behind the first `count` tiers. -/
def tiersUpTo (count : Nat) (backups : List BackupEntry) (policy : RetentionPolicy)
    (kept : Finset String) : Finset String :=
  ((tiers policy).take count).foldl (fun kept tier => applyTier tier.1 tier.2 backups kept) kept

/-- The backup is the first of its period, and the period one of the first `n`
of the list. -/
def CoveredBy (n : Int) (key : Instant → List Int) (backups : List BackupEntry)
    (b : BackupEntry) : Prop :=
  ∃ before after, backups = before ++ b :: after ∧
    (∀ other ∈ before, key other.timestamp ≠ key b.timestamp) ∧
    ((keysOf (periodOf key) before).card : Int) < n

theorem mem_applyTier_of_covered {n : Int} {key : Instant → List Int}
    (distinct : DistinctNames backups) (kept : Finset String) {b : BackupEntry}
    (covered : CoveredBy n key backups b) : b.fileName ∈ applyTier n key backups kept := by
  obtain ⟨before, after, rfl, first, few⟩ := covered
  rw [applyTier_eq n key distinct, Finset.mem_union]
  by_cases isKept : b.fileName ∈ kept
  · exact .inl isKept
  · refine .inr (mem_names.mpr ⟨b, ?_, rfl⟩)
    have whole : b ∈ pick n.toNat (periodOf key) ∅
        ((before ++ b :: after).filter fun _ => true) := by
      rw [List.filter_true, mem_pick_iff]
      refine ⟨before, after, rfl, ?_, ?_⟩
      · rw [Finset.empty_union]
        intro member
        obtain ⟨other, inBefore, same⟩ := mem_keysOf.mp member
        exact first other inBefore same
      · rw [Finset.empty_union]
        omega
    exact mem_pick_filter (Nat.le_refl _) (fun _ _ _ => rfl) (by simp [notIn, isKept]) whole

theorem card_applyTier_sdiff_le (n : Int) (key : Instant → List Int)
    (distinct : DistinctNames backups) (kept : Finset String) :
    (applyTier n key backups kept \ kept).card ≤ n.toNat := by
  have added : applyTier n key backups kept \ kept ⊆
      names (pick n.toNat (periodOf key) ∅ (backups.filter (notIn kept))) := by
    rw [applyTier_eq n key distinct, Finset.union_sdiff_left]
    exact Finset.sdiff_subset
  have size := List.toFinset_card_le ((pick n.toNat (periodOf key) ∅
    (backups.filter (notIn kept))).map BackupEntry.fileName)
  have bound := length_pick_le n.toNat (periodOf key) ∅ (backups.filter (notIn kept))
  rw [List.length_map] at size
  rw [Finset.card_empty] at bound
  exact (Finset.card_le_card added).trans (size.trans bound)

theorem tiersUpTo_succ {policy : RetentionPolicy} {index : Nat}
    {tier : Int × (Instant → List Int)} (isTier : (tiers policy)[index]? = some tier)
    (kept : Finset String) :
    tiersUpTo (index + 1) backups policy kept =
      applyTier tier.1 tier.2 backups (tiersUpTo index backups policy kept) := by
  unfold tiersUpTo
  rw [List.take_add_one, isTier, List.foldl_append]
  rfl

theorem tiersUpTo_subset (backups : List BackupEntry) (policy : RetentionPolicy)
    (kept : Finset String) (count : Nat) :
    tiersUpTo count backups policy kept ⊆ runTiers backups policy kept := by
  have split : runTiers backups policy kept = ((tiers policy).drop count).foldl
      (fun kept tier => applyTier tier.1 tier.2 backups kept)
      (tiersUpTo count backups policy kept) := by
    unfold runTiers tiersUpTo
    rw [← List.foldl_append, List.take_append_drop]
  rw [split]
  exact subset_foldl_applyTier _ _ _

/-- Whatever is kept before, the tiers take nothing back, and each tier with a
positive count keeps the first backup of each of the first `n` periods and
adds at most `n` backups. -/
theorem applyTiers_covers (backups : List BackupEntry) (distinct : DistinctNames backups)
    (policy : RetentionPolicy) (kept : Finset String) :
    kept ⊆ applyTiers.run backups policy kept ∧
      ∀ index n key, (tiers policy)[index]? = some (n, key) → 0 < n →
        (∀ b, CoveredBy n key backups b → b.fileName ∈ applyTiers.run backups policy kept) ∧
          ((tiersUpTo (index + 1) backups policy kept \
            tiersUpTo index backups policy kept).card : Int) ≤ n := by
  refine ⟨applyTiers.adds backups policy kept, fun index n key isTier positive => ⟨?_, ?_⟩⟩
  · intro b covered
    apply tiersUpTo_subset backups policy kept (index + 1)
    rw [tiersUpTo_succ isTier]
    exact mem_applyTier_of_covered distinct _ covered
  · have bound := card_applyTier_sdiff_le n key distinct (tiersUpTo index backups policy kept)
    rw [tiersUpTo_succ isTier]
    dsimp only
    omega

/-- The chain of two backups under one daily backup: the newer one is covered. -/
theorem applyTiers_covers_newest :
    sampleIncremental.fileName ∈
      applyTiers.run [sampleIncremental, sampleFull] { daily := 1 } ∅ := by
  have distinct : DistinctNames [sampleIncremental, sampleFull] := by decide
  refine ((applyTiers_covers [sampleIncremental, sampleFull] distinct { daily := 1 } ∅).2
    1 1 dayKey rfl (by decide)).1 sampleIncremental ?_
  exact ⟨[], [sampleFull], rfl, by simp, by decide⟩

/-! ### More generous policies -/

/-- No field of the policy is smaller. -/
structure AtLeast (policy generous : RetentionPolicy) : Prop where
  last : policy.last ≤ generous.last
  within : policy.within ≤ generous.within
  hourly : policy.hourly ≤ generous.hourly
  daily : policy.daily ≤ generous.daily
  weekly : policy.weekly ≤ generous.weekly
  monthly : policy.monthly ≤ generous.monthly
  yearly : policy.yearly ≤ generous.yearly

/-- A tier that finds more kept takes less itself, but nothing is lost: what it
would have taken is kept already, or still the first of its period. -/
theorem applyTier_mono {n more : Int} (enough : n ≤ more) (key : Instant → List Int)
    (distinct : DistinctNames backups)
    {kept others : Finset String} (subset : kept ⊆ others) :
    applyTier n key backups kept ⊆ applyTier more key backups others := by
  rw [applyTier_eq n key distinct, applyTier_eq more key distinct]
  intro name member
  rw [Finset.mem_union] at member ⊢
  rcases member with isKept | isPicked
  · exact .inl (subset isKept)
  · obtain ⟨b, picked, rfl⟩ := mem_names.mp isPicked
    by_cases known : b.fileName ∈ others
    · exact .inl known
    · refine .inr (mem_names.mpr ⟨b, ?_, rfl⟩)
      refine mem_pick_filter (by omega) (fun other _ isNew => ?_) (by simp [notIn, known]) picked
      have notOther : other.fileName ∉ others := by simpa [notIn] using isNew
      simpa [notIn] using fun isKept => notOther (subset isKept)

theorem runTiers_mono {policy generous : RetentionPolicy} (atLeast : AtLeast policy generous)
    (distinct : DistinctNames backups)
    {kept others : Finset String} (subset : kept ⊆ others) :
    runTiers backups policy kept ⊆ runTiers backups generous others := by
  have hourly := applyTier_mono atLeast.hourly hourKey distinct subset
  have daily := applyTier_mono atLeast.daily dayKey distinct hourly
  have weekly := applyTier_mono atLeast.weekly weekKey distinct daily
  have monthly := applyTier_mono atLeast.monthly monthKey distinct weekly
  exact applyTier_mono atLeast.yearly yearKey distinct monthly

theorem names_mono {backups others : List BackupEntry} (subset : ∀ b ∈ backups, b ∈ others) :
    names backups ⊆ names others := by
  intro name member
  obtain ⟨b, inBackups, rfl⟩ := mem_names.mp member
  exact mem_names.mpr ⟨b, subset b inBackups, rfl⟩

theorem keepWithin_mono {policy generous : RetentionPolicy} (atLeast : AtLeast policy generous)
    (now : Instant) (sorted : List BackupEntry) (kept : Finset String) :
    keepWithin policy now sorted kept ⊆ keepWithin generous now sorted kept := by
  have longer := atLeast.within
  unfold keepWithin
  split
  · rename_i positive
    rw [if_pos (by omega)]
    refine Finset.union_subset_union (Finset.Subset.refl _) (names_mono fun b member => ?_)
    obtain ⟨inList, inside⟩ := List.mem_filter.mp member
    refine List.mem_filter.mpr ⟨inList, ?_⟩
    simp only [insideWindow, Instant.before, Instant.add, Bool.and_eq_true, Bool.not_eq_true']
      at inside ⊢
    have reached := of_decide_eq_false inside.2
    exact ⟨inside.1, decide_eq_false (by omega)⟩
  · exact subset_keepWithin generous now sorted kept

theorem keepLast_mono {policy generous : RetentionPolicy} (atLeast : AtLeast policy generous)
    (sorted : List BackupEntry) {kept others : Finset String} (subset : kept ⊆ others) :
    keepLast policy sorted kept ⊆ keepLast generous sorted others := by
  have more := atLeast.last
  unfold keepLast
  split
  · rename_i positive
    rw [if_pos (by omega)]
    refine Finset.union_subset_union subset (names_mono fun b member => ?_)
    have part : sorted.take policy.last.toNat <+: sorted.take generous.last.toNat :=
      List.take_prefix_take_left (by omega)
    exact part.subset member
  · exact subset.trans (subset_keepLast generous sorted others)

/-- **A more generous policy never deletes more.** With the tiers installed and
both policies licensed, a backup the smaller policy does not return is not
returned for the larger one. -/
theorem applyRetentionAt_generous (env : RetentionEnv) (installed : env.hook = applyTiers)
    (backups : List BackupEntry) (distinct : DistinctNames backups)
    (policy generous : RetentionPolicy) (atLeast : AtLeast policy generous)
    (licensed : checkPrune env policy = true) (alsoLicensed : checkPrune env generous = true)
    (now : Instant) (b : BackupEntry) (member : b ∈ backups)
    (isKept : b.fileName ∉ applyRetentionAt env backups policy now) :
    b.fileName ∉ applyRetentionAt env backups generous now := by
  rw [mem_applyRetentionAt_iff] at isKept ⊢
  have listed : ∃ other ∈ backups, other.fileName = b.fileName := ⟨b, member, rfl⟩
  have inKept : b.fileName ∈ keptNames env (env.sort.run backups) policy
      (if now.isZero then env.clock else now) := by
    by_contra missing
    exact isKept ⟨listed, missing⟩
  intro returned
  refine returned.2 (?_ : _ ∈ keptNames env (env.sort.run backups) generous _)
  unfold keptNames licensedPolicy at inKept ⊢
  rw [installed, if_pos licensed] at inKept
  rw [installed, if_pos alsoLicensed]
  exact runTiers_mono atLeast (distinct.perm (env.sort.perm backups))
    (keepLast_mono atLeast _ (keepWithin_mono atLeast _ _ _)) inKept

/-- Keeping one backup more does not give up the daily one. -/
theorem applyRetentionAt_generous_sample :
    sampleFull.fileName ∉ applyRetentionAt sampleEnv [sampleFull, sampleIncremental]
      { last := 1, daily := 2 } sampleEnv.clock :=
  applyRetentionAt_generous sampleEnv rfl [sampleFull, sampleIncremental]
    (by decide) { daily := 2 } { last := 1, daily := 2 }
    ⟨by decide, by decide, by decide, by decide, by decide, by decide, by decide⟩
    (by decide) (by decide) sampleEnv.clock sampleFull (by simp) (by decide +kernel)

end DbBackup.Retention
