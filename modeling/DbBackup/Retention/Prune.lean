import DbBackup.Retention.Chain

/-!
Owns one prune of a storage: the listing of `ListBackupsWithSidecars`, the list
`applyPrune` hands to `DeleteBackups`, and how a prune of a shared storage
relates to a prune of one database in it.

The listing has no notion of a database. A storage that several databases share
is pruned as one list, so a count limit is spent on the newest files whichever
database they belong to. An identity is any labelling of the listed backups;
`Separate` asks that no chain crosses it, which the parent lookups of a run
guarantee by searching under the database's own file prefix.
-/

set_option linter.all false

namespace DbBackup.Retention

open Lib Lib.GoString Lib.Sorting Lib.Time Lib.LinkGraph Storage Relation

/-! ### Listing -/

/-- The `sidecars` map: a sidecar counts only when its object is listed too. -/
def listedSidecar (store : Store) (path : String) : Option Sidecar :=
  if sidecarName path ∈ store.entries.map Entry.path then store.readSidecar path else none

def listedTimestamp (sidecar : Option Sidecar) (path : String) : Instant :=
  let stamped := ((sidecar.bind fun sc => parseRFC3339 sc.timestamp).getD Instant.zero)
  if stamped.isZero then (parseTimestamp path).getD stamped else stamped

def listedStrategy (sidecar : Option Sidecar) (path : String) : String :=
  let strategy := (sidecar.map Sidecar.strategy).getD "full"
  if strategy = "full" then (strategyFromFilename path).text else strategy

def backupEntry (store : Store) (entry : Entry) : BackupEntry :=
  let sidecar := listedSidecar store entry.path
  { fileName := entry.path
    timestamp := listedTimestamp sidecar entry.path
    strategy := listedStrategy sidecar entry.path
    base := (sidecar.map Sidecar.base).getD ""
    size := entry.size }

def listBackupsWithSidecars (store : Store) : List BackupEntry :=
  (store.entries.filter fun e => !hasSuffix e.path ".json" && isBackupFile e.path).map
    (backupEntry store)

theorem listed_distinct (store : Store) :
    ((listBackupsWithSidecars store).map BackupEntry.fileName).Nodup := by
  unfold listBackupsWithSidecars
  rw [List.map_map]
  exact store.distinct.sublist (List.filter_sublist.map Entry.path)

/-- The files `applyPrune` hands to `DeleteBackups`. -/
def applyPrune (env : RetentionEnv) (store : Store) (policy : RetentionPolicy) : List String :=
  if !policy.valid then []
  else if checkPrune env policy then
    applyRetention env (listBackupsWithSidecars store) policy
  else if !policy.stripTiers.valid then []
  else applyRetention env (listBackupsWithSidecars store) policy.stripTiers

theorem valid_of_stripTiers {policy : RetentionPolicy} (valid : policy.stripTiers.valid = true) :
    policy.valid = true := by
  have noTiers : policy.stripTiers.hasGFS = false := rfl
  unfold RetentionPolicy.valid at *
  rw [noTiers, Bool.or_false] at valid
  rw [Bool.or_eq_true]
  exact .inl valid

variable (env : RetentionEnv)

theorem applyRetention_eq (backups : List BackupEntry) (policy : RetentionPolicy) :
    applyRetention env backups policy = applyRetentionAt env backups policy env.clock := by
  have zeroIsZero : Instant.zero.isZero = true := by simp [Instant.isZero]
  simp [applyRetention, applyRetentionAt, zeroIsZero]

/-- `ApplyRetentionAt` strips unlicensed tiers itself. -/
theorem applyRetentionAt_stripTiers (backups : List BackupEntry)
    (policy : RetentionPolicy) (now : Instant) (unlicensed : checkPrune env policy = false) :
    applyRetentionAt env backups policy.stripTiers now =
      applyRetentionAt env backups policy now := by
  have samePolicy : licensedPolicy env policy.stripTiers = licensedPolicy env policy := by
    unfold licensedPolicy
    rw [unlicensed]
    split <;> rfl
  have sameKept : ∀ sorted at_, keptNames env sorted policy.stripTiers at_ =
      keptNames env sorted policy at_ := by
    intro sorted at_
    unfold keptNames
    rw [samePolicy]
    rfl
  simp only [applyRetentionAt, sameKept]

/-- Where a prune runs at all, it decides as `ApplyRetentionAt` does at the
clock's time. -/
theorem applyPrune_eq (store : Store) (policy : RetentionPolicy)
    (acts : (licensedPolicy env policy).valid = true) :
    applyPrune env store policy =
      applyRetentionAt env (listBackupsWithSidecars store) policy env.clock := by
  unfold applyPrune licensedPolicy at *
  by_cases licensed : checkPrune env policy = true
  · rw [if_pos licensed] at acts
    simp [acts, licensed, applyRetention_eq]
  · rw [if_neg licensed] at acts
    have isValid : policy.valid = true := valid_of_stripTiers acts
    simp only [isValid, acts, licensed, Bool.not_true, Bool.false_eq_true, ↓reduceIte,
      applyRetention_eq]
    exact applyRetentionAt_stripTiers env _ policy _ (by simpa using licensed)

/-! ### One part of a list -/

section Part

variable {backups : List BackupEntry} {own : BackupEntry → Bool}

/-- No `Base` link leads into the part or out of it. -/
def Separate (backups : List BackupEntry) (own : BackupEntry → Bool) : Prop :=
  ∀ b parent, BaseLink backups b parent → own b = own parent

/-- Of the backups in the part, `alone` keeps all that `whole` keeps. -/
def KeepsNoMore (backups : List BackupEntry) (own : BackupEntry → Bool)
    (whole alone : Finset String) : Prop :=
  ∀ b ∈ backups, own b = true → b.fileName ∈ whole → b.fileName ∈ alone

theorem mem_names_filter (distinct : (backups.map BackupEntry.fileName).Nodup)
    {keep : BackupEntry → Bool} {b : BackupEntry} (member : b ∈ backups) :
    b.fileName ∈ names (backups.filter keep) ↔ keep b = true := by
  rw [mem_names]
  constructor
  · intro ⟨other, inFilter, sameName⟩
    obtain ⟨otherMember, kept⟩ := List.mem_filter.mp inFilter
    rwa [List.inj_on_of_nodup_map distinct otherMember member sameName] at kept
  · intro kept
    exact ⟨b, List.mem_filter.mpr ⟨member, kept⟩, rfl⟩

theorem distinct_filter (distinct : (backups.map BackupEntry.fileName).Nodup)
    (keep : BackupEntry → Bool) :
    ((backups.filter keep).map BackupEntry.fileName).Nodup :=
  distinct.sublist (List.filter_sublist.map BackupEntry.fileName)

theorem link_iff (distinct : (backups.map BackupEntry.fileName).Nodup) {name next : String} :
    Link (nextBase backups) name next ↔
      ∃ b ∈ backups, b.fileName = name ∧ b.base = next ∧ next ≠ "" := by
  unfold Link nextBase
  constructor
  · intro linked
    obtain ⟨base, found, isNext⟩ := Option.bind_eq_some_iff.mp linked
    obtain ⟨notEmpty, rfl⟩ := nonEmpty_eq_some.mp isNext
    obtain ⟨b, member, sameName, sameBase⟩ := findBase_eq_some found
    exact ⟨b, member, sameName, sameBase, notEmpty⟩
  · intro ⟨b, member, sameName, sameBase, notEmpty⟩
    rw [← sameName, findBase_of_mem distinct member, Option.bind_some, sameBase]
    exact nonEmpty_eq_some.mpr ⟨notEmpty, rfl⟩

/-- The chains of a separate part are its own business: what the whole list
protects in it is what the part alone protects. -/
theorem mem_chainDependencies_filter (distinct : (backups.map BackupEntry.fileName).Nodup)
    (separate : Separate backups own) {b : BackupEntry} (member : b ∈ backups)
    (inPart : own b = true) :
    b.fileName ∈ chainDependencies backups ↔
      b.fileName ∈ chainDependencies (backups.filter own) := by
  have partDistinct := distinct_filter distinct own
  rw [mem_chainDependencies_iff, mem_chainDependencies_iff]
  constructor
  · intro ⟨start, startMember, notFull, notEmpty, path⟩
    -- Followed backwards from `b`, the path never leaves the part.
    have stays : ∀ name, ReflTransGen (Link (nextBase backups)) name b.fileName →
        (∃ e ∈ backups, own e = true ∧ e.fileName = name) ∧
          ReflTransGen (Link (nextBase (backups.filter own))) name b.fileName := by
      intro name walk
      induction walk using ReflTransGen.head_induction_on with
      | refl => exact ⟨⟨b, member, inPart, rfl⟩, .refl⟩
      | head link _ ih =>
        obtain ⟨e, eMember, eName, eBase, nextNotEmpty⟩ := (link_iff distinct).mp link
        obtain ⟨⟨parent, parentMember, parentPart, parentName⟩, rest⟩ := ih
        have ePart : own e = true := by
          rw [separate e parent ⟨eMember, parentMember, by rwa [eBase], by rw [parentName, eBase]⟩]
          exact parentPart
        refine ⟨⟨e, eMember, ePart, eName⟩, .head ?_ rest⟩
        exact (link_iff partDistinct).mpr
          ⟨e, List.mem_filter.mpr ⟨eMember, ePart⟩, eName, eBase, nextNotEmpty⟩
    obtain ⟨⟨parent, parentMember, parentPart, parentName⟩, partPath⟩ := stays _ path
    have startPart : own start = true := by
      rw [separate start parent ⟨startMember, parentMember, notEmpty, parentName⟩]
      exact parentPart
    exact ⟨start, List.mem_filter.mpr ⟨startMember, startPart⟩, notFull, notEmpty, partPath⟩
  · intro ⟨start, startMember, notFull, notEmpty, path⟩
    refine ⟨start, List.mem_of_mem_filter startMember, notFull, notEmpty, ?_⟩
    refine path.lift id ?_
    intro name next link
    obtain ⟨e, eMember, rest⟩ := (link_iff partDistinct).mp link
    exact (link_iff distinct).mpr ⟨e, List.mem_of_mem_filter eMember, rest⟩

theorem mem_keepNeeded_filter (distinct : (backups.map BackupEntry.fileName).Nodup)
    (separate : Separate backups own) {b : BackupEntry} (member : b ∈ backups)
    (inPart : own b = true) :
    b.fileName ∈ keepNeeded backups ↔ b.fileName ∈ keepNeeded (backups.filter own) := by
  unfold keepNeeded
  rw [mem_names_filter distinct member,
    mem_names_filter (distinct_filter distinct own) (List.mem_filter.mpr ⟨member, inPart⟩)]
  simp only [decide_eq_true_eq]
  exact mem_chainDependencies_filter distinct separate member inPart

theorem mem_keepWithin_filter (distinct : (backups.map BackupEntry.fileName).Nodup)
    (policy : RetentionPolicy) (now : Instant) {whole alone : Finset String} {b : BackupEntry}
    (member : b ∈ backups) (inPart : own b = true)
    (same : b.fileName ∈ whole ↔ b.fileName ∈ alone) :
    b.fileName ∈ keepWithin policy now backups whole ↔
      b.fileName ∈ keepWithin policy now (backups.filter own) alone := by
  unfold keepWithin
  split
  · rw [Finset.mem_union, Finset.mem_union, same, mem_names_filter distinct member,
      mem_names_filter (distinct_filter distinct own) (List.mem_filter.mpr ⟨member, inPart⟩)]
  · exact same

/-! ### Count limits -/

/-- The first `n` of a list hold at most the first `n` of each part of it. -/
theorem filter_take_subset {α : Type*} (items : List α) (keep : α → Bool) (n : Nat) {item : α}
    (taken : item ∈ items.take n) (kept : keep item = true) :
    item ∈ (items.filter keep).take n := by
  have initial : (items.take n).filter keep <+: items.filter keep :=
    (List.take_prefix n items).filter keep
  have short : ((items.take n).filter keep).length ≤ n :=
    (List.length_filter_le _ _).trans (List.length_take_le _ _)
  have inTake : (items.take n).filter keep <+: (items.filter keep).take n :=
    List.prefix_take_iff.mpr ⟨initial, short⟩
  exact inTake.subset (List.mem_filter.mpr ⟨taken, kept⟩)

theorem keepLast_keepsNoMore (distinct : (backups.map BackupEntry.fileName).Nodup)
    (policy : RetentionPolicy) {whole alone : Finset String}
    (before : KeepsNoMore backups own whole alone) :
    KeepsNoMore backups own (keepLast policy backups whole)
      (keepLast policy (backups.filter own) alone) := by
  intro b member inPart kept
  unfold keepLast at kept ⊢
  by_cases limited : 0 < policy.last
  · rw [if_pos limited, Finset.mem_union] at kept ⊢
    rcases kept with kept | newest
    · exact .inl (before b member inPart kept)
    · right
      obtain ⟨other, taken, sameName⟩ := mem_names.mp newest
      rw [List.inj_on_of_nodup_map distinct (List.mem_of_mem_take taken) member sameName] at taken
      exact mem_names.mpr ⟨b, filter_take_subset _ _ _ taken inPart, rfl⟩
  · rw [if_neg limited] at kept ⊢
    exact before b member inPart kept

/-! ### Tiers -/

/-- How the tier loop over the whole list stands to the loop over the part. The
whole list has used up at least the same periods, or all of its slots. -/
structure TierCovers (backups : List BackupEntry) (own : BackupEntry → Bool) (n : Int)
    (whole alone : TierState) : Prop where
  kept : KeepsNoMore backups own whole.kept alone.kept
  seen : alone.seen ⊆ whole.seen ∨ n ≤ (whole.seen.card : Int)

theorem tierStep_seen_mono (n : Int) (key : Instant → List Int) (state : TierState)
    (b : BackupEntry) : state.seen ⊆ (tierStep n key state b).seen := by
  unfold tierStep
  split
  · exact Finset.Subset.refl _
  · split
    · exact Finset.subset_insert _ _
    · exact Finset.Subset.refl _

/-- What a round keeps besides what was kept before is the backup it looks at. -/
theorem mem_tierStep_kept {n : Int} {key : Instant → List Int} {state : TierState}
    {b : BackupEntry} {name : String} (kept : name ∈ (tierStep n key state b).kept) :
    name ∈ state.kept ∨ name = b.fileName ∧ b.fileName ∉ state.kept ∧
      (state.seen.card : Int) < n ∧ key b.timestamp ∉ state.seen := by
  unfold tierStep at kept
  split at kept
  · exact .inl kept
  · rename_i absent
    split at kept
    · rename_i fresh
      rcases Finset.mem_insert.mp kept with isNew | old
      · exact .inr ⟨isNew, absent, fresh⟩
      · exact .inl old
    · exact .inl kept

theorem seen_covers_mono {n : Int} {alone whole larger : Finset (List Int)}
    (before : alone ⊆ whole ∨ n ≤ (whole.card : Int)) (grows : whole ⊆ larger) :
    alone ⊆ larger ∨ n ≤ (larger.card : Int) := by
  rcases before with covered | full
  · exact .inl (covered.trans grows)
  · right
    have := Finset.card_le_card grows
    omega

/-- A backup outside the part only uses up slots of the whole list. -/
theorem tierCovers_step_other (distinct : (backups.map BackupEntry.fileName).Nodup) {n : Int}
    (key : Instant → List Int) {whole alone : TierState} {b : BackupEntry} (member : b ∈ backups)
    (outside : own b = false) (covers : TierCovers backups own n whole alone) :
    TierCovers backups own n (tierStep n key whole b) alone where
  kept := by
    intro c cMember cPart kept
    rcases mem_tierStep_kept kept with old | ⟨sameName, _⟩
    · exact covers.kept c cMember cPart old
    · rw [List.inj_on_of_nodup_map distinct cMember member sameName, outside] at cPart
      exact absurd cPart (by decide)
  seen := seen_covers_mono covers.seen (tierStep_seen_mono n key whole b)

/-- A backup of the part that the whole list takes is taken by the part alone:
its period is fresh there too and a slot is left. -/
theorem tierCovers_step_own {n : Int} (key : Instant → List Int) {whole alone : TierState} {b : BackupEntry} (member : b ∈ backups)
    (inPart : own b = true) (covers : TierCovers backups own n whole alone) :
    TierCovers backups own n (tierStep n key whole b) (tierStep n key alone b) where
  kept := by
    intro c cMember cPart kept
    rcases mem_tierStep_kept kept with old | ⟨sameName, _, slotLeft, fresh⟩
    · exact kept_subset_tierStep n key alone b (covers.kept c cMember cPart old)
    · rw [sameName]
      have covered : alone.seen ⊆ whole.seen := by
        rcases covers.seen with covered | full
        · exact covered
        · omega
      have aloneSlot : (alone.seen.card : Int) < n := by
        have := Finset.card_le_card covered
        omega
      have aloneFresh : key b.timestamp ∉ alone.seen := fun seen => fresh (covered seen)
      unfold tierStep
      by_cases already : b.fileName ∈ alone.kept
      · rwa [if_pos already]
      · rw [if_neg already, if_pos ⟨aloneSlot, aloneFresh⟩]
        exact Finset.mem_insert_self _ _
  seen := by
    have grown := seen_covers_mono covers.seen (tierStep_seen_mono n key whole b)
    by_cases already : b.fileName ∈ alone.kept
    · simpa [tierStep, already] using grown
    · by_cases takes : (alone.seen.card : Int) < n ∧ key b.timestamp ∉ alone.seen
      · have notKept : b.fileName ∉ whole.kept :=
          fun kept => already (covers.kept b member inPart kept)
        rcases covers.seen with covered | full
        · by_cases wholeTakes : (whole.seen.card : Int) < n ∧ key b.timestamp ∉ whole.seen
          · left
            simp only [tierStep, already, notKept, takes, wholeTakes, not_false_eq_true, and_self,
              ↓reduceIte]
            exact Finset.insert_subset_insert _ covered
          · simp only [tierStep, already, notKept, takes, wholeTakes, not_false_eq_true, and_self,
              ↓reduceIte]
            by_cases seen : key b.timestamp ∈ whole.seen
            · exact .inl (Finset.insert_subset seen covered)
            · right
              by_contra slotLeft
              exact wholeTakes ⟨by omega, seen⟩
        · right
          have := Finset.card_le_card (tierStep_seen_mono n key whole b)
          omega
      · simpa only [tierStep, already, takes, ↓reduceIte] using grown

theorem tierCovers_foldl (distinct : (backups.map BackupEntry.fileName).Nodup) {n : Int}
    (key : Instant → List Int) (rounds : List BackupEntry) (listed : ∀ b ∈ rounds, b ∈ backups)
    {whole alone : TierState} (covers : TierCovers backups own n whole alone) :
    TierCovers backups own n (rounds.foldl (tierStep n key) whole)
      ((rounds.filter own).foldl (tierStep n key) alone) := by
  induction rounds generalizing whole alone with
  | nil => exact covers
  | cons b rest ih =>
    obtain ⟨member, restListed⟩ := List.forall_mem_cons.mp listed
    by_cases inPart : own b = true
    · rw [List.filter_cons_of_pos inPart]
      exact ih restListed
        (tierCovers_step_own key member inPart covers)
    · rw [List.filter_cons_of_neg inPart]
      exact ih restListed
        (tierCovers_step_other distinct key member (by simpa using inPart) covers)

theorem applyTier_keepsNoMore (distinct : (backups.map BackupEntry.fileName).Nodup) (n : Int)
    (key : Instant → List Int) {whole alone : Finset String}
    (before : KeepsNoMore backups own whole alone) :
    KeepsNoMore backups own (applyTier n key backups whole)
      (applyTier n key (backups.filter own) alone) := by
  unfold applyTier
  split
  · exact before
  · have initially : TierCovers backups own n ⟨whole, ∅⟩ ⟨alone, ∅⟩ :=
      ⟨before, .inl (Finset.Subset.refl _)⟩
    exact (tierCovers_foldl distinct key backups (fun _ member => member) initially).kept

theorem runTiers_keepsNoMore (distinct : (backups.map BackupEntry.fileName).Nodup)
    (policy : RetentionPolicy) {whole alone : Finset String}
    (before : KeepsNoMore backups own whole alone) :
    KeepsNoMore backups own (runTiers backups policy whole)
      (runTiers (backups.filter own) policy alone) := by
  unfold runTiers
  induction tiers policy generalizing whole alone with
  | nil => exact before
  | cons tier rest ih =>
    exact ih (applyTier_keepsNoMore distinct tier.1 tier.2 before)

/-! ### All rules together -/

variable (env : RetentionEnv)

theorem keptNames_keepsNoMore (installed : env.hook = applyTiers ∨ env.hook = noopTierHook)
    (distinct : (backups.map BackupEntry.fileName).Nodup) (separate : Separate backups own)
    (policy : RetentionPolicy) (now : Instant) :
    KeepsNoMore backups own (keptNames env backups policy now)
      (keptNames env (backups.filter own) policy now) := by
  have window : KeepsNoMore backups own
      (keepWithin policy now backups (keepNeeded backups))
      (keepWithin policy now (backups.filter own) (keepNeeded (backups.filter own))) := by
    intro b member inPart
    exact (mem_keepWithin_filter distinct policy now member inPart
      (mem_keepNeeded_filter distinct separate member inPart)).mp
  have counted := keepLast_keepsNoMore distinct policy window
  unfold keptNames
  rcases installed with gfs | noop
  · rw [gfs]
    exact runTiers_keepsNoMore distinct _ counted
  · rw [noop]
    exact counted

/-- Without tiers the installed hook does nothing. -/
theorem hook_run_of_no_tiers
    (installed : env.hook = applyTiers ∨ env.hook = noopTierHook) {policy : RetentionPolicy}
    (noTiers : policy.hasGFS = false) (backups : List BackupEntry) (kept : Finset String) :
    env.hook.run backups policy kept = kept := by
  rcases installed with gfs | noop
  · simp only [RetentionPolicy.hasGFS, Bool.or_eq_false_iff, decide_eq_false_iff_not,
      not_lt] at noTiers
    obtain ⟨⟨⟨⟨hourly, daily⟩, weekly⟩, monthly⟩, yearly⟩ := noTiers
    rw [gfs]
    simp [applyTiers, runTiers, tiers, applyTier, hourly, daily, weekly, monthly, yearly]
  · rw [noop]
    rfl

/-- The time window alone treats every backup by itself. -/
theorem mem_keptNames_filter_of_within (installed : env.hook = applyTiers ∨ env.hook = noopTierHook)
    (distinct : (backups.map BackupEntry.fileName).Nodup) (separate : Separate backups own)
    {policy : RetentionPolicy} (now : Instant) (noLast : ¬ 0 < policy.last)
    (noTiers : (licensedPolicy env policy).hasGFS = false) {b : BackupEntry}
    (member : b ∈ backups) (inPart : own b = true) :
    b.fileName ∈ keptNames env backups policy now ↔
      b.fileName ∈ keptNames env (backups.filter own) policy now := by
  unfold keptNames keepLast
  rw [hook_run_of_no_tiers env installed noTiers, hook_run_of_no_tiers env installed noTiers,
    if_neg noLast, if_neg noLast]
  exact mem_keepWithin_filter distinct policy now member inPart
    (mem_keepNeeded_filter distinct separate member inPart)

end Part

/-- Distinct timestamps leave nothing to the order of equal elements. -/
theorem eq_of_not_newer {backups : List BackupEntry} {a b : BackupEntry}
    (distinctTimes : (backups.map fun c => c.timestamp.nanos).Nodup) (aMember : a ∈ backups)
    (bMember : b ∈ backups) (notNewer : newer a b = false) (notOlder : newer b a = false) :
    a = b := by
  apply List.inj_on_of_nodup_map distinctTimes aMember bMember
  simp only [newer, Instant.after, decide_eq_false_iff_not, not_lt] at notNewer notOlder
  exact le_antisymm notNewer notOlder

/-- The newest backup heads the sorted list. -/
theorem newest_mem_take (sort : SliceSort newer) {backups : List BackupEntry} {b : BackupEntry}
    (distinctTimes : (backups.map fun c => c.timestamp.nanos).Nodup) (member : b ∈ backups)
    (newest : ∀ c ∈ backups, c.timestamp.nanos ≤ b.timestamp.nanos) {n : Nat} (some : 0 < n) :
    b ∈ (sort.run backups).take n := by
  have sorted := sort.sorted backups
  have listed : b ∈ sort.run backups := sort.mem_run.mpr member
  have fromRun : ∀ c ∈ sort.run backups, c ∈ backups := fun c inRun => sort.mem_run.mp inRun
  obtain ⟨k, rfl⟩ := Nat.exists_eq_succ_of_ne_zero (Nat.ne_of_gt some)
  cases shape : sort.run backups with
  | nil => rw [shape] at listed; exact absurd listed List.not_mem_nil
  | cons head rest =>
    rw [shape] at sorted listed fromRun
    rw [List.take_succ_cons]
    rcases List.mem_cons.mp listed with isHead | inRest
    · exact isHead ▸ List.mem_cons_self
    · have headMember : head ∈ backups := fromRun head List.mem_cons_self
      have notNewer : newer head b = false := by
        simpa [newer, Instant.after] using newest head headMember
      have isHead : head = b := eq_of_not_newer distinctTimes headMember member notNewer
        ((List.pairwise_cons.mp sorted).1 b inRest)
      exact isHead ▸ List.mem_cons_self

/-- **What a prune of a shared storage owes each database.** It never keeps more
of a database than a prune of that database alone would; a policy of a time
window only keeps exactly the same; and of all databases together the newest
backup survives a count limit. -/
theorem applyPrune_against_identity {ι : Type} [DecidableEq ι] (env : RetentionEnv)
    (store : Store) (policy : RetentionPolicy) (ident : BackupEntry → ι)
    (installed : env.hook = applyTiers ∨ env.hook = noopTierHook)
    (acts : (licensedPolicy env policy).valid = true)
    (distinctTimes :
      ((listBackupsWithSidecars store).map fun b => b.timestamp.nanos).Nodup)
    (ownChains : ∀ b parent, BaseLink (listBackupsWithSidecars store) b parent →
      ident b = ident parent) :
    (∀ b ∈ listBackupsWithSidecars store,
        b.fileName ∉ applyPrune env store policy →
        b.fileName ∉ applyRetentionAt env
          ((listBackupsWithSidecars store).filter fun c => ident c = ident b) policy env.clock) ∧
      (¬ 0 < policy.last → (licensedPolicy env policy).hasGFS = false →
        ∀ b ∈ listBackupsWithSidecars store,
          (b.fileName ∈ applyPrune env store policy ↔
            b.fileName ∈ applyRetentionAt env
              ((listBackupsWithSidecars store).filter fun c => ident c = ident b)
              policy env.clock)) ∧
      (0 < policy.last → ∀ b ∈ listBackupsWithSidecars store,
        (∀ c ∈ listBackupsWithSidecars store, c.timestamp.nanos ≤ b.timestamp.nanos) →
        b.fileName ∉ applyPrune env store policy) := by
  rw [applyPrune_eq env store policy acts]
  have distinct := listed_distinct store
  set backups := listBackupsWithSidecars store
  have sortedDistinct : ((env.sort.run backups).map BackupEntry.fileName).Nodup :=
    ((env.sort.perm backups).map BackupEntry.fileName).nodup_iff.mpr distinct
  have decisive : ∀ a ∈ backups, ∀ b ∈ backups,
      newer a b = false → newer b a = false → a = b :=
    fun a aMember b bMember => eq_of_not_newer distinctTimes aMember bMember
  have separate : ∀ i, Separate (env.sort.run backups) fun c => decide (ident c = i) := by
    intro i b parent link
    have listedLink : BaseLink backups b parent :=
      ⟨env.sort.mem_run.mp link.1, env.sort.mem_run.mp link.2.1, link.2.2⟩
    show decide (ident b = i) = decide (ident parent = i)
    rw [ownChains b parent listedLink]
  have inPart : ∀ b ∈ backups, b ∈ backups.filter fun c => decide (ident c = ident b) :=
    fun b member => List.mem_filter.mpr ⟨member, by simp⟩
  refine ⟨?_, ?_, ?_⟩
  · intro b member kept returned
    rw [mem_applyRetentionAt_iff] at kept returned
    apply returned.2
    rw [env.sort.run_filter decisive]
    apply keptNames_keepsNoMore env installed sortedDistinct (separate _) policy _ b
      (env.sort.mem_run.mpr member) (by simp)
    by_contra dropped
    exact kept ⟨⟨b, member, rfl⟩, dropped⟩
  · intro noLast noTiers b member
    rw [mem_applyRetentionAt_iff, mem_applyRetentionAt_iff, env.sort.run_filter decisive,
      mem_keptNames_filter_of_within env installed sortedDistinct (separate (ident b)) _ noLast
        noTiers (env.sort.mem_run.mpr member) (by simp)]
    have listed : ∃ c ∈ backups, c.fileName = b.fileName := ⟨b, member, rfl⟩
    have listedPart : ∃ c ∈ backups.filter fun c => decide (ident c = ident b),
        c.fileName = b.fileName := ⟨b, inPart b member, rfl⟩
    simp only [listed, listedPart, true_and]
  · intro limited b member newest returned
    rw [mem_applyRetentionAt_iff] at returned
    apply returned.2
    apply env.hook.adds
    unfold keepLast
    rw [if_pos limited, Finset.mem_union]
    right
    exact mem_names.mpr ⟨b, newest_mem_take env.sort distinctTimes member newest (by omega), rfl⟩

/-- The identity a run puts into its file name. -/
def identity (b : BackupEntry) : Option (String × String × String) :=
  match parseBackupFilename b.fileName with
  | .ok info => some (info.type, info.dbName, info.host)
  | .error _ => none

/-- One full backup of each of two databases of one server. -/
def sharedStore : Store where
  entries :=
    [{ path := "mysql-app-db-full-20240101-000000.sql" },
      { path := "mysql-app-db-full-20240101-000000.sql.json" },
      { path := "mysql-shop-db-full-20240102-000000.sql" },
      { path := "mysql-shop-db-full-20240102-000000.sql.json" }]
  readSidecar path :=
    if path = "mysql-app-db-full-20240101-000000.sql" then
      some { strategy := "full", timestamp := "2024-01-01T00:00:00Z", db := "app" }
    else if path = "mysql-shop-db-full-20240102-000000.sql" then
      some { strategy := "full", timestamp := "2024-01-02T00:00:00Z", db := "shop" }
    else none
  distinct := by decide

def appBackup : BackupEntry where
  fileName := "mysql-app-db-full-20240101-000000.sql"
  timestamp := { nanos := 1704067200 * second }
  strategy := "full"

def shopBackup : BackupEntry where
  fileName := "mysql-shop-db-full-20240102-000000.sql"
  timestamp := { nanos := 1704153600 * second }
  strategy := "full"

theorem list_sharedStore : listBackupsWithSidecars sharedStore = [appBackup, shopBackup] := by
  unfold listBackupsWithSidecars backupEntry listedTimestamp listedStrategy parseTimestamp
    strategyFromFilename isBackupFile parseBackupFilename
  simp only [dashParts_chars, filepathBase, filenameTokens, Backtrack.fullMatch,
    apply_ite String.toList, String.toList_ofList]
  decide +kernel

theorem identity_appBackup : identity appBackup = some ("mysql", "app", "db") := by
  decide +kernel

theorem identity_shopBackup : identity shopBackup = some ("mysql", "shop", "db") := by
  decide +kernel

theorem filter_identity_appBackup :
    [appBackup, shopBackup].filter (fun c => identity c = identity appBackup) = [appBackup] := by
  simp [identity_appBackup, identity_shopBackup]

/-- `last: 1` on the shared storage deletes the only backup of one database. -/
theorem applyPrune_deletes_only_backup :
    ((listBackupsWithSidecars sharedStore).map fun b => b.timestamp.nanos).Nodup ∧
      appBackup.fileName ∈ applyPrune sampleEnv sharedStore { last := 1 } ∧
      (listBackupsWithSidecars sharedStore).filter (fun c => identity c = identity appBackup) =
        [appBackup] ∧
      appBackup.fileName ∉ applyRetentionAt sampleEnv
        ((listBackupsWithSidecars sharedStore).filter fun c => identity c = identity appBackup)
        { last := 1 } sampleEnv.clock := by
  rw [list_sharedStore, applyPrune_eq _ _ _ (by decide), list_sharedStore,
    filter_identity_appBackup]
  decide +kernel

theorem applyPrune_against_identity_shared :
    shopBackup.fileName ∉ applyPrune sampleEnv sharedStore { last := 1 } := by
  refine (applyPrune_against_identity sampleEnv sharedStore { last := 1 } identity (.inl rfl)
    (by decide) ?_ ?_).2.2 (by decide) shopBackup ?_ ?_
  · rw [list_sharedStore]
    decide
  · intro b parent link
    rw [list_sharedStore] at link
    have noBase : b.base = "" := by
      rcases List.mem_pair.mp link.1 with rfl | rfl <;> rfl
    exact absurd noBase link.2.2.1
  · rw [list_sharedStore]
    simp
  · rw [list_sharedStore]
    decide

end DbBackup.Retention
