import DbBackup.Retention.Policy
import DbBackup.Retention.Within

/-!
Owns what the scheduler does after a backup (`internal/scheduler/retention.go`):
archiving, pruning the job's storage, and pruning the archive.

Contract: the archive's own retention is applied to the storage the files were
moved to exactly if the job names no archive storage, or one that is its own
storage at the archive path (`actsOnArchive_iff`). `applyArchive` prefers the
archive storage, `postBackup` never looks at it.

Storages are values of any type `σ`; opening one from its settings, the license
and the number of files a run of the archiver moves are answers of the
environment. Which settings a job ends up with is decided when it is loaded;
a loaded job always has a storage.
-/

set_option linter.all false

namespace DbBackup.Scheduler

open Lib.GoString Retention

structure TLSConfig where
  enable : Bool := false
  caFile : String := ""
  certFile : String := ""
  keyFile : String := ""
  verify : Option Bool := none
  version : String := ""
deriving DecidableEq

def TLSConfig.verifyCerts (tls : TLSConfig) : Bool := tls.verify.getD true

structure StorageConfig where
  backend : String := ""
  bucket : String := ""
  path : String := ""
  endpoint : String := ""
  region : String := ""
  keyID : String := ""
  keySecret : String := ""
  account : String := ""
  key : String := ""
  url : String := ""
  pass : String := ""
  fileMode : String := ""
  dirMode : String := ""
  user : String := ""
  group : String := ""
  tls : Option TLSConfig := none
deriving DecidableEq

def StorageConfig.options (c : StorageConfig) : List (String × String) :=
  [("path", c.path), ("file_mode", c.fileMode), ("dir_mode", c.dirMode), ("user", c.user),
    ("group", c.group), ("bucket", c.bucket), ("endpoint", c.endpoint), ("region", c.region),
    ("key_id", c.keyID), ("key_secret", c.keySecret), ("account", c.account), ("key", c.key),
    ("container", c.bucket), ("url", c.url), ("pass", c.pass)] ++
  match c.tls with
  | some tls =>
    if tls.enable then
      [("tls_ca_file", tls.caFile), ("tls_cert_file", tls.certFile), ("tls_key_file", tls.keyFile),
        ("tls_verify", if tls.verifyCerts then "true" else "false"), ("tls_version", tls.version)]
    else []
  | none => []

structure RetentionConfig where
  last : Option Int := none
  within : String := ""
  hourly : Option Int := none
  daily : Option Int := none
  weekly : Option Int := none
  monthly : Option Int := none
  yearly : Option Int := none
deriving DecidableEq

structure ArchiveSettings where
  last : Int := 0
  within : String := ""
  path : String := ""
  retention : Option RetentionConfig := none
  storage : Option StorageConfig := none
deriving DecidableEq

structure JobConfig where
  name : String
  storage : StorageConfig
  retention : Option RetentionConfig := none
  archive : Option ArchiveSettings := none
deriving DecidableEq

structure SchedulerEnv (σ : Type) where
  within : WithinEnv
  checkArchive : Bool
  storagePath : String
  /-- `storage.New`. -/
  new : String → List (String × String) → Option σ
  /-- How many files `RunArchive` moves for a limit, a window and two storages. -/
  moved : Int → Int → σ → σ → Nat

section Run

variable {σ : Type} (env : SchedulerEnv σ)

def storageFromConfig (cfg : StorageConfig) : Option σ := env.new cfg.backend cfg.options

def archiveStorageCfg (job : JobConfig) (archive : ArchiveSettings) : StorageConfig :=
  let base := if job.storage.path = "" then env.storagePath ++ "/" ++ job.name else job.storage.path
  { job.storage with path := if archive.path = "" then base ++ "/archive" else archive.path }

def archiveWithin (archive : ArchiveSettings) : Option Int :=
  if archive.within = "" then some 0
  else match parseWithin env.within archive.within with
    | .ok within => some within
    | .error _ => none

/-- Where `applyArchive` moves files to, if it moves any. -/
def applyArchive (job : JobConfig) (archive : ArchiveSettings) : Option σ :=
  if !env.checkArchive then none
  else do
    let src ← storageFromConfig env job.storage
    let dst ← storageFromConfig env (archive.storage.getD (archiveStorageCfg env job archive))
    let within ← archiveWithin env archive
    if 0 < env.moved archive.last within src dst then some dst else none

def retentionPolicy (ret : RetentionConfig) : RetentionPolicy where
  last := ret.last.getD 0
  within :=
    if ret.within = "" then 0
    else match parseWithin env.within ret.within with
      | .ok within => within
      | .error _ => 0
  hourly := ret.hourly.getD 0
  daily := ret.daily.getD 0
  weekly := ret.weekly.getD 0
  monthly := ret.monthly.getD 0
  yearly := ret.yearly.getD 0

/-- The policy `applyPrune` goes by: without the license its tiers are left
out, and nothing happens if no rule remains. -/
def prunePolicy (ret : RetentionConfig) : Option RetentionPolicy :=
  let policy := retentionPolicy env ret
  if !policy.valid then none
  else if !policy.hasGFS || env.within.allowRetention then some policy
  else if policy.stripTiers.valid then some policy.stripTiers else none

/-- The storage `applyPrune` lists and deletes from, and the policy. -/
def applyPrune (stCfg : StorageConfig) (ret : RetentionConfig) : Option (σ × RetentionPolicy) := do
  let policy ← prunePolicy env ret
  let st ← storageFromConfig env stCfg
  some (st, policy)

/-- What a run after a backup acts on. -/
structure PostBackup (σ : Type) where
  movedTo : Option σ
  pruned : Option (σ × RetentionPolicy)
  archivePruned : Option (σ × RetentionPolicy)

def postBackup (job : JobConfig) : PostBackup σ where
  movedTo := do
    let archive ← job.archive
    if 0 < archive.last ∨ archive.within ≠ "" then applyArchive env job archive else none
  pruned := do
    let ret ← job.retention
    applyPrune env job.storage ret
  archivePruned := do
    let archive ← job.archive
    let ret ← archive.retention
    applyPrune env (archiveStorageCfg env job archive) ret

/-- The storage pruned with the archive's policy is the one the run moved
files to. -/
def ActsOnArchive (job : JobConfig) : Prop :=
  ∀ dst, (postBackup env job).movedTo = some dst →
    ∀ st policy, (postBackup env job).archivePruned = some (st, policy) → st = dst

/-- The run archives: it is licensed and asked to, the storages open, and there
is something to move. -/
def MovesFiles (job : JobConfig) (archive : ArchiveSettings) (target : StorageConfig) : Prop :=
  env.checkArchive = true ∧ (0 < archive.last ∨ archive.within ≠ "") ∧
    ∃ src dst within, storageFromConfig env job.storage = some src ∧
      storageFromConfig env target = some dst ∧ archiveWithin env archive = some within ∧
      0 < env.moved archive.last within src dst

/-- The archive has a retention with a rule that is in force. -/
def PrunesArchive (archive : ArchiveSettings) : Prop :=
  ∃ ret, archive.retention = some ret ∧ (prunePolicy env ret).isSome = true

/-- The archive storage of a job that archives and prunes its archive, where
one is set, opens the storage of the job at the archive path. -/
def OwnArchive (job : JobConfig) : Prop :=
  ∀ archive storage, job.archive = some archive → archive.storage = some storage →
    MovesFiles env job archive storage → PrunesArchive env archive →
    ∀ st, storageFromConfig env (archiveStorageCfg env job archive) = some st →
      storageFromConfig env storage = some st

variable {env}

variable {job : JobConfig}

theorem applyArchive_eq_some_iff {archive : ArchiveSettings} {dst : σ} :
    applyArchive env job archive = some dst ↔ env.checkArchive = true ∧
      ∃ src within, storageFromConfig env job.storage = some src ∧
        storageFromConfig env (archive.storage.getD (archiveStorageCfg env job archive)) = some dst ∧
        archiveWithin env archive = some within ∧ 0 < env.moved archive.last within src dst := by
  unfold applyArchive
  by_cases licensed : env.checkArchive = true
  · simp only [licensed, Bool.not_true, Bool.false_eq_true, if_false, Option.bind_eq_bind,
      Option.bind_eq_some_iff, Option.ite_none_right_eq_some, Option.some.injEq, true_and]
    constructor
    · rintro ⟨src, isSrc, opened, isDst, within, isWithin, moves, rfl⟩
      exact ⟨src, within, isSrc, isDst, isWithin, moves⟩
    · rintro ⟨src, within, isSrc, isDst, isWithin, moves⟩
      exact ⟨src, isSrc, dst, isDst, within, isWithin, moves, rfl⟩
  · simp [licensed]

theorem movedTo_eq_some_iff {dst : σ} :
    (postBackup env job).movedTo = some dst ↔ ∃ archive, job.archive = some archive ∧
      MovesFiles env job archive (archive.storage.getD (archiveStorageCfg env job archive)) ∧
      storageFromConfig env (archive.storage.getD (archiveStorageCfg env job archive)) = some dst := by
  unfold postBackup MovesFiles
  simp only [Option.bind_eq_bind, Option.bind_eq_some_iff, Option.ite_none_right_eq_some,
    applyArchive_eq_some_iff]
  constructor
  · rintro ⟨archive, isArchive, asked, licensed, src, within, isSrc, isDst, isWithin, moves⟩
    exact ⟨archive, isArchive, ⟨licensed, asked, src, dst, within, isSrc, isDst, isWithin, moves⟩,
      isDst⟩
  · rintro ⟨archive, isArchive, ⟨licensed, asked, src, opened, within, isSrc, isOpened, isWithin,
      moves⟩, isDst⟩
    obtain rfl := Option.some.inj (isOpened.symm.trans isDst)
    exact ⟨archive, isArchive, asked, licensed, src, within, isSrc, isDst, isWithin, moves⟩

theorem archivePruned_eq_some_iff {st : σ} :
    (∃ policy, (postBackup env job).archivePruned = some (st, policy)) ↔
      ∃ archive, job.archive = some archive ∧ PrunesArchive env archive ∧
        storageFromConfig env (archiveStorageCfg env job archive) = some st := by
  unfold postBackup applyPrune PrunesArchive
  simp only [Option.bind_eq_bind, Option.bind_eq_some_iff, Option.some.injEq, Prod.mk.injEq,
    Option.isSome_iff_exists]
  constructor
  · rintro ⟨policy, archive, isArchive, ret, isRet, found, isPolicy, opened, isOpened, rfl, -⟩
    exact ⟨archive, isArchive, ⟨ret, isRet, found, isPolicy⟩, isOpened⟩
  · rintro ⟨archive, isArchive, ⟨ret, isRet, policy, isPolicy⟩, isOpened⟩
    exact ⟨policy, archive, isArchive, ret, isRet, policy, isPolicy, st, isOpened, rfl, rfl⟩

end Run

/-- For every job and environment: the archive's retention acts on the storage
the run moved files to exactly if the archive storage is unset or the job's own
at the archive path, where the run archives and prunes the archive at all. -/
theorem actsOnArchive_iff {σ : Type} (env : SchedulerEnv σ) (job : JobConfig) :
    ActsOnArchive env job ↔ OwnArchive env job := by
  constructor
  · intro acts archive storage isArchive isStorage moves prunes st opensSt
    have settings := moves
    obtain ⟨-, -, src, dst, within, -, opensDst, -⟩ := settings
    have target : archive.storage.getD (archiveStorageCfg env job archive) = storage := by
      rw [isStorage, Option.getD_some]
    have moved : (postBackup env job).movedTo = some dst :=
      movedTo_eq_some_iff.mpr ⟨archive, isArchive, by rwa [target], by rwa [target]⟩
    obtain ⟨policy, pruned⟩ := archivePruned_eq_some_iff.mpr ⟨archive, isArchive, prunes, opensSt⟩
    rw [opensDst, acts dst moved st policy pruned]
  · intro own dst moved st policy pruned
    obtain ⟨archive, isArchive, moves, opensDst⟩ := movedTo_eq_some_iff.mp moved
    obtain ⟨other, isOther, prunes, opensSt⟩ := archivePruned_eq_some_iff.mp ⟨policy, pruned⟩
    obtain rfl := Option.some.inj (isArchive.symm.trans isOther)
    cases isStorage : archive.storage with
    | none =>
      rw [isStorage, Option.getD_none, opensSt] at opensDst
      exact Option.some.inj opensDst
    | some storage =>
      rw [isStorage, Option.getD_some] at moves opensDst
      have same := own archive storage isArchive isStorage moves prunes st opensSt
      exact Option.some.inj (same.symm.trans opensDst)

/-- Backends told apart by name and path; one file moves. -/
def folderEnv : SchedulerEnv (String × String) where
  within := ⟨true, true⟩
  checkArchive := true
  storagePath := "/var/backups"
  new backend options := some (backend, (options.lookup "path").getD "")
  moved _ _ _ _ := 1

/-- Archived to a share of its own, and pruned below the hot storage. -/
def offsiteJob : JobConfig where
  name := "nightly"
  storage := { backend := "filesystem", path := "/backups" }
  archive := some
    { last := 7
      retention := some { last := some 30 }
      storage := some { backend := "filesystem", path := "/mnt/offsite" } }

theorem offsite_archive_unpruned :
    (postBackup folderEnv offsiteJob).movedTo = some ("filesystem", "/mnt/offsite") ∧
      (postBackup folderEnv offsiteJob).archivePruned =
        some (("filesystem", "/backups/archive"), { last := 30 }) ∧
      ¬ ActsOnArchive folderEnv offsiteJob := by
  have moved : (postBackup folderEnv offsiteJob).movedTo = some ("filesystem", "/mnt/offsite") := by
    decide +kernel
  have pruned : (postBackup folderEnv offsiteJob).archivePruned =
      some (("filesystem", "/backups/archive"), { last := 30 }) := by
    decide +kernel
  refine ⟨moved, pruned, fun acts => ?_⟩
  exact absurd (acts _ moved _ _ pruned) (by decide)

end DbBackup.Scheduler
