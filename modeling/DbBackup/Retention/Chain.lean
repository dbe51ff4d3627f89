import DbBackup.Retention.Policy

/-!
Owns the chain rule of retention: `chainDependencies` marks exactly the files
reachable over `Base` links from a backup that is not full, and so pruning,
however far it gets, never takes a file that a surviving backup needs.

The marking loop stops at a name that is already marked. `LinkGraph` shows that
this loses nothing, dangling links and cycles included; what remains here is to
read the loop over backups as that walk.
-/

namespace DbBackup.Retention

open Lib Lib.Sorting Lib.Time Lib.LinkGraph Relation

/-! ### Base links -/

/-- A listed backup's `Base` names another listed backup. -/
def BaseLink (backups : List BackupEntry) (b parent : BackupEntry) : Prop :=
  b ∈ backups ∧ parent ∈ backups ∧ b.base ≠ "" ∧ parent.fileName = b.base

def nonEmpty (name : String) : Option String :=
  if name = "" then none else some name

/-- The link of a listed name, as the inner search finds it. -/
def nextBase (backups : List BackupEntry) (name : String) : Option String :=
  (findBase backups name).bind nonEmpty

theorem nonEmpty_eq_some {name found : String} :
    nonEmpty name = some found ↔ name ≠ "" ∧ name = found := by
  unfold nonEmpty
  by_cases empty : name = "" <;> simp [empty]

variable {backups : List BackupEntry}

theorem findBase_eq_some {name base : String} (found : findBase backups name = some base) :
    ∃ b ∈ backups, b.fileName = name ∧ b.base = base := by
  unfold findBase at found
  obtain ⟨b, isFound, rfl⟩ := Option.map_eq_some_iff.mp found
  exact ⟨b, List.mem_of_find?_eq_some isFound, by simpa using List.find?_some isFound, rfl⟩

/-- With distinct names the search finds the backup itself. -/
theorem findBase_of_mem
    (distinct : (backups.map BackupEntry.fileName).Nodup) {b : BackupEntry} (member : b ∈ backups) :
    findBase backups b.fileName = some b.base := by
  unfold findBase
  cases found : backups.find? fun candidate => candidate.fileName = b.fileName with
  | none =>
    have missing := List.find?_eq_none.mp found b member
    simp at missing
  | some candidate =>
    have inList := List.mem_of_find?_eq_some found
    have sameName : candidate.fileName = b.fileName := by simpa using List.find?_some found
    rw [List.inj_on_of_nodup_map distinct inList member sameName]
    rfl

theorem link_of_baseLink
    (distinct : (backups.map BackupEntry.fileName).Nodup) {b parent : BackupEntry}
    (link : BaseLink backups b parent) :
    Link (nextBase backups) b.fileName parent.fileName := by
  obtain ⟨member, _, notEmpty, named⟩ := link
  show (findBase backups b.fileName).bind nonEmpty = some parent.fileName
  rw [findBase_of_mem distinct member]
  exact nonEmpty_eq_some.mpr ⟨notEmpty, named.symm⟩

/-! ### The marking loop -/

theorem followBases_eq_mark (backups : List BackupEntry) (fuel : Nat) (base : String)
    (needed : Finset String) :
    followBases backups fuel base needed =
      mark (nextBase backups) fuel (nonEmpty base) needed := by
  induction fuel generalizing base needed with
  | zero =>
    by_cases empty : base = "" <;> simp [followBases, nonEmpty, empty, mark]
  | succ fuel ih =>
    by_cases empty : base = ""
    · simp [followBases, nonEmpty, empty]
    · simp only [followBases, nonEmpty, empty, ↓reduceIte, mark]
      split
      · rfl
      · cases found : findBase backups base with
        | none => simp [nextBase, found]
        | some next => simp [nextBase, found, ih]

theorem chainDependencies_eq_markAll (backups : List BackupEntry) : chainDependencies backups =
      markAll (nextBase backups) (backups.length + 1)
        ((backups.filter fun b => b.strategy ≠ "full").map fun b => nonEmpty b.base) := by
  unfold chainDependencies markAll
  rw [List.foldl_map, List.foldl_filter]
  congr 1
  funext needed b
  by_cases full : b.strategy = "full" <;> simp [full, followBases_eq_mark]

/-- The files `chainDependencies` protects, for any `Base` links. -/
theorem mem_chainDependencies_iff (backups : List BackupEntry) (name : String) :
    name ∈ chainDependencies backups ↔
      ∃ b ∈ backups, b.strategy ≠ "full" ∧ b.base ≠ "" ∧
        ReflTransGen (Link (nextBase backups)) b.base name := by
  have hasLink : ∀ node, nextBase backups node ≠ none → node ∈ names backups := by
    intro node linked
    cases found : findBase backups node with
    | none => simp [nextBase, found] at linked
    | some base =>
      obtain ⟨b, member, sameName, _⟩ := findBase_eq_some found
      exact mem_names.mpr ⟨b, member, sameName⟩
  have enough : (names backups).card < backups.length + 1 := by
    have bound := List.toFinset_card_le (backups.map BackupEntry.fileName)
    rw [List.length_map] at bound
    exact Nat.lt_succ_of_le bound
  rw [chainDependencies_eq_markAll, mem_markAll_iff hasLink enough]
  constructor
  · rintro ⟨start, isStart, path⟩
    obtain ⟨b, inFilter, isBase⟩ := List.mem_map.mp isStart
    obtain ⟨member, notFull⟩ := List.mem_filter.mp inFilter
    obtain ⟨notEmpty, rfl⟩ := nonEmpty_eq_some.mp isBase
    exact ⟨b, member, by simpa using notFull, notEmpty, path⟩
  · rintro ⟨b, member, notFull, notEmpty, path⟩
    refine ⟨b.base, List.mem_map.mpr ⟨b, ?_, nonEmpty_eq_some.mpr ⟨notEmpty, rfl⟩⟩, path⟩
    exact List.mem_filter.mpr ⟨member, by simpa using notFull⟩

/-- Every ancestor of a backup that is not full is protected. -/
theorem ancestor_mem_chainDependencies
    (distinct : (backups.map BackupEntry.fileName).Nodup) {b ancestor : BackupEntry}
    (notFull : b.strategy ≠ "full") (path : TransGen (BaseLink backups) b ancestor) :
    ancestor.fileName ∈ chainDependencies backups := by
  obtain ⟨parent, first, rest⟩ := TransGen.head'_iff.mp path
  have walk : ReflTransGen (Link (nextBase backups)) parent.fileName ancestor.fileName :=
    rest.lift BackupEntry.fileName fun _ _ link => link_of_baseLink distinct link
  rw [first.2.2.2] at walk
  exact (mem_chainDependencies_iff backups _).mpr ⟨b, first.1, notFull, first.2.2.1, walk⟩

theorem ancestor_mem {b ancestor : BackupEntry}
    (path : TransGen (BaseLink backups) b ancestor) : ancestor ∈ backups := by
  obtain ⟨_, _, last⟩ := TransGen.tail'_iff.mp path
  exact last.2.1

/-! ### Pruning -/

/-- The sort only changes the order, and protection does not depend on it. -/
theorem ancestor_mem_keptNames (env : RetentionEnv)
    (distinct : (backups.map BackupEntry.fileName).Nodup) (policy : RetentionPolicy)
    (now : Instant) {b ancestor : BackupEntry} (notFull : b.strategy ≠ "full")
    (path : TransGen (BaseLink backups) b ancestor) :
    ancestor.fileName ∈ keptNames env (env.sort.run backups) policy now := by
  apply keepNeeded_subset_keptNames
  have samePerm := env.sort.perm backups
  have sortedDistinct : ((env.sort.run backups).map BackupEntry.fileName).Nodup :=
    (samePerm.map BackupEntry.fileName).nodup_iff.mpr distinct
  have sortedPath : TransGen (BaseLink (env.sort.run backups)) b ancestor := by
    refine path.lift id fun _ _ link => ?_
    exact ⟨samePerm.mem_iff.mpr link.1, samePerm.mem_iff.mpr link.2.1, link.2.2⟩
  refine mem_names.mpr ⟨ancestor, List.mem_filter.mpr ⟨ancestor_mem sortedPath, ?_⟩, rfl⟩
  exact decide_eq_true (ancestor_mem_chainDependencies sortedDistinct notFull sortedPath)

/-- Files left of a backup list when some of them are deleted. -/
def survivors (backups : List BackupEntry) (deleted : Finset String) : List BackupEntry :=
  backups.filter fun b => b.fileName ∉ deleted

/-- **Pruning never breaks a chain.** No ancestor of a listed backup that is not
full is given up, so whatever part of the list is deleted before a prune stops,
every surviving backup that is not full keeps its whole listed chain. -/
theorem applyRetentionAt_keeps_chains (env : RetentionEnv) (backups : List BackupEntry)
    (policy : RetentionPolicy) (now : Instant)
    (distinct : (backups.map BackupEntry.fileName).Nodup) :
    (∀ b ∈ backups, b.strategy ≠ "full" → ∀ ancestor,
        TransGen (BaseLink backups) b ancestor →
        ancestor.fileName ∉ applyRetentionAt env backups policy now) ∧
      (∀ deleted : Finset String,
        (∀ name ∈ deleted, name ∈ applyRetentionAt env backups policy now) →
        ∀ b ∈ survivors backups deleted, b.strategy ≠ "full" → ∀ ancestor,
          TransGen (BaseLink backups) b ancestor →
          ancestor ∈ survivors backups deleted) := by
  have protectedAncestor : ∀ b ∈ backups, b.strategy ≠ "full" → ∀ ancestor,
      TransGen (BaseLink backups) b ancestor →
      ancestor.fileName ∉ applyRetentionAt env backups policy now := by
    intro b _ notFull ancestor path returned
    rw [mem_applyRetentionAt_iff] at returned
    exact returned.2 (ancestor_mem_keptNames env distinct policy _ notFull path)
  refine ⟨protectedAncestor, fun deleted fromReturned b survives notFull ancestor path => ?_⟩
  have member : b ∈ backups := List.mem_of_mem_filter survives
  refine List.mem_filter.mpr ⟨ancestor_mem path, decide_eq_true fun isDeleted => ?_⟩
  exact protectedAncestor b member notFull ancestor path (fromReturned _ isDeleted)

/-- An environment that computes: insertion sort, the GFS tiers, a license. -/
def sampleEnv : RetentionEnv where
  sort := insertionSliceSort newer newer_keyOrder
  hook := applyTiers
  allowRetention := true
  clock := { nanos := 1704240000 * second }

def sampleFull : BackupEntry where
  fileName := "mysql-app-db-full-20240101-000000.sql"
  timestamp := { nanos := 1704067200 * second }
  strategy := "full"

def sampleIncremental : BackupEntry where
  fileName := "mysql-app-db-incr-20240102-000000.sql"
  timestamp := { nanos := 1704153600 * second }
  strategy := "incremental"
  base := "mysql-app-db-full-20240101-000000.sql"

/-- A policy that keeps one backup keeps the incremental and with it its base. -/
theorem applyRetentionAt_keeps_chains_sample :
    sampleFull.fileName ∉
      applyRetentionAt sampleEnv [sampleFull, sampleIncremental] { last := 1 } sampleEnv.clock :=
  (applyRetentionAt_keeps_chains sampleEnv [sampleFull, sampleIncremental] { last := 1 }
      sampleEnv.clock (by decide)).1 sampleIncremental (by simp) (by decide) sampleFull
    (.single ⟨by simp, by simp, by decide, by decide⟩)

end DbBackup.Retention
