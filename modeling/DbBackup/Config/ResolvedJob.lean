import DbBackup.Config.Resolve
import DbBackup.Scheduler.Goroutines

/-!
Owns what the rest of the program gets from a job after `resolveJob`: the storage
it names (`mergeStorage`) and the parts the scheduler executes for it
(`runOnceJob`).

Contract: a named storage profile reaches the job exactly if none of the fields
`mergeStorage` forgets matters (`storage_followsProfile_iff`). A job never stays
without a backup section, so the scheduler's branch for maintenance alone is
never taken (`resolved_never_maintainsOnly`).
-/

set_option linter.all false

namespace DbBackup.Config.Resolve

open Lib.Zone
open DbBackup.Scheduler (MaintenanceConfig Execution Part runParts)

/-! ### The storage a job names -/

/-- Whether the mapping under `storage` has the key. -/
def JobNode.setsStorage (node : JobNode) (field : StorageKey) : Prop :=
  match node.storage with
  | .mapping m => m.text field ≠ .absent
  | _ => False

def JobNode.setsStorageTLS (node : JobNode) : Prop :=
  match node.storage with
  | .mapping m => m.tls ≠ .absent
  | _ => False

/-- The storage has the profile's value wherever the job does not set its own. -/
def FollowsProfile (node : JobNode) (prof : StorageConfig) (resolved : Option StorageConfig) :
    Prop :=
  ∃ s, resolved = some s ∧ (∀ field, ¬ node.setsStorage field → s.text field = prof.text field) ∧
    (¬ node.setsStorageTLS → s.tls = prof.tls)

/-- Whether the job has a `storage` key of its own, as a name or as a mapping. -/
def JobNode.writesStorage (node : JobNode) : Bool :=
  match node.storage with
  | .absent => false
  | .scalar text => text ≠ "unset"
  | .mapping _ => true

/-- When the value of a key survives: `mergeStorage` has no line for four of the
keys, and empty modes are filled in afterwards. -/
def carriesKey (written : Bool) (prof : StorageConfig) (field : StorageKey) : Prop :=
  match field with
  | .account | .key | .url | .pass => written = true → prof.text field = ""
  | .fileMode | .dirMode => prof.text field ≠ ""
  | .backend =>
    written = false → prof.backend = "" → prof.unsetKeys.contains StorageKey.backend.yaml = false
  | _ => True

def CarriesProfile (node : JobNode) (prof : StorageConfig) : Prop :=
  (∀ field, ¬ node.setsStorage field → carriesKey node.writesStorage prof field) ∧
    (¬ node.setsStorageTLS → node.writesStorage = true → prof.tls = none)

theorem yaml_injective : Function.Injective StorageKey.yaml := by
  intro one other same
  cases one <;> cases other <;> first | rfl | exact absurd same (by decide)

theorem StorageMapping.unmarshal_text (m : StorageMapping) (field : StorageKey) :
    m.unmarshal.text field = (m.text field).get "" := by
  cases field <;> rfl

variable {field : StorageKey}

theorem StorageMapping.unmarshal_unsets {m : StorageMapping}
    (absent : m.text field = .absent) : m.unmarshal.unsetKeys.contains field.yaml = false := by
  rw [← Bool.not_eq_true, List.contains_iff_mem]
  intro listed
  obtain ⟨other, kept, same⟩ := List.mem_map.mp listed
  obtain rfl : other = field := yaml_injective same
  have unset : m.text other = .unset := by simpa using (List.mem_filter.mp kept).2
  rw [absent] at unset
  exact nomatch unset

/-- What a job's own storage has at the keys it does not set. -/
structure Blank (own : StorageConfig) (field : StorageKey) : Prop where
  text : own.text field = ""
  unsets : own.unsetKeys.contains field.yaml = false

theorem unmarshal_storage_isSome (node : JobNode) :
    node.unmarshal.storage.isSome = node.writesStorage := by
  unfold JobNode.unmarshal JobNode.writesStorage RefNode.decode
  cases node.storage with
  | absent => rfl
  | scalar text => by_cases isUnset : text = "unset" <;> simp [isUnset]
  | mapping m => rfl

variable {node : JobNode} {own : StorageConfig}

/-- The storage of a job that writes one: empty for a name. -/
theorem unmarshal_storage_cases (given : node.unmarshal.storage = some own) :
    (own = {} ∧ (∀ field, ¬ node.setsStorage field) ∧ ¬ node.setsStorageTLS) ∨
      ∃ m, node.storage = .mapping m ∧ own = m.unmarshal := by
  unfold JobNode.unmarshal RefNode.decode at given
  unfold JobNode.setsStorage JobNode.setsStorageTLS
  cases storage : node.storage with
  | absent => simp [storage] at given
  | scalar text =>
    by_cases isUnset : text = "unset"
    · simp [storage, isUnset] at given
    · left
      simp only [storage, isUnset, if_false, Option.some.injEq] at given
      exact ⟨given.symm, fun _ => not_false, not_false⟩
  | mapping m =>
    right
    simp only [storage, Option.some.injEq] at given
    exact ⟨m, rfl, given.symm⟩

theorem blank_of_not_sets
    (given : node.unmarshal.storage = some own) (free : ¬ node.setsStorage field) : Blank own field := by
  obtain ⟨rfl, -, -⟩ | ⟨m, storage, rfl⟩ := unmarshal_storage_cases given
  · constructor
    · cases field <;> rfl
    · rfl
  · have absent : m.text field = .absent := by
      simpa [JobNode.setsStorage, storage] using free
    constructor
    · rw [StorageMapping.unmarshal_text, absent]
      rfl
    · exact StorageMapping.unmarshal_unsets absent

theorem tls_of_not_sets
    (given : node.unmarshal.storage = some own) (free : ¬ node.setsStorageTLS) : own.tls = none := by
  obtain ⟨rfl, -, -⟩ | ⟨m, storage, rfl⟩ := unmarshal_storage_cases given
  · rfl
  · have absent : m.tls = .absent := by
      simpa [JobNode.setsStorageTLS, storage] using free
    show m.tls.get none = none
    rw [absent]
    rfl

theorem mergeText_blank (blank : Blank own field)
    (other : String) : mergeText own.unsetKeys field (own.text field) other = other := by
  unfold mergeText
  rw [blank.unsets, blank.text]
  rfl

theorem textOr_eq_iff {text fallback : String} (given : fallback ≠ "") :
    textOr text fallback = text ↔ text ≠ "" := by
  unfold textOr
  by_cases empty : text = ""
  · simp [empty, given]
  · simp [empty]

/-- A value that is not merged is the profile's only where that has none. -/
theorem lost_iff {α : Type} {own other zero : α} (blank : own = zero) :
    own = other ↔ (true = true → other = zero) := by
  rw [blank]
  exact ⟨fun same _ => same.symm, fun kept => (kept rfl).symm⟩

/-- The profile alone, without a storage of the job. -/
theorem storageDefaults_carries (prof : StorageConfig) (field : StorageKey) :
    (storageDefaults prof).text field = prof.text field ↔ carriesKey false prof field := by
  cases field with
  | fileMode => exact textOr_eq_iff (by decide)
  | dirMode => exact textOr_eq_iff (by decide)
  | backend =>
    show (if prof.backend = "" && prof.unsetKeys.contains StorageKey.backend.yaml then "filesystem"
      else prof.backend) = prof.backend ↔ _
    by_cases empty : prof.backend = ""
    · cases unsets : prof.unsetKeys.contains StorageKey.backend.yaml <;>
        simp [empty, unsets, carriesKey, -List.contains_eq_mem]
    · simp [empty, carriesKey]
  | account | key | url | pass => simp [storageDefaults, StorageConfig.text, carriesKey]
  | bucket | path | endpoint | region | keyID | keySecret | user | group =>
    simp [storageDefaults, StorageConfig.text, carriesKey]

/-- The profile merged into a storage that does not set the key. -/
theorem mergeStorage_carries (blank : Blank own field) (prof : StorageConfig) :
    (storageDefaults (mergeStorage own prof)).text field = prof.text field ↔
      carriesKey true prof field := by
  have merged := mergeText_blank blank (prof.text field)
  cases field with
  | fileMode =>
    show textOr (mergeText own.unsetKeys .fileMode _ prof.fileMode) "600" = prof.fileMode ↔ _
    rw [show mergeText own.unsetKeys .fileMode own.fileMode prof.fileMode = prof.fileMode from merged]
    exact textOr_eq_iff (by decide)
  | dirMode =>
    show textOr (mergeText own.unsetKeys .dirMode _ prof.dirMode) "700" = prof.dirMode ↔ _
    rw [show mergeText own.unsetKeys .dirMode own.dirMode prof.dirMode = prof.dirMode from merged]
    exact textOr_eq_iff (by decide)
  | backend =>
    have free : own.unsetKeys.contains StorageKey.backend.yaml = false := blank.unsets
    have same : (mergeStorage own prof).backend = prof.backend := merged
    have kept : (mergeStorage own prof).unsetKeys = own.unsetKeys := rfl
    show (if (mergeStorage own prof).backend = "" &&
      (mergeStorage own prof).unsetKeys.contains StorageKey.backend.yaml then "filesystem"
      else (mergeStorage own prof).backend) = prof.backend ↔ _
    rw [same, kept, free]
    simp [carriesKey]
  | account | key | url | pass =>
    exact lost_iff blank.text
  | bucket | path | endpoint | region | keyID | keySecret | user | group =>
    exact iff_of_true merged trivial

/-- A job that names a storage profile gets it unchanged, its own keys apart,
exactly if every field that is lost or filled in on the way is one it cannot
miss. -/
theorem storage_followsProfile_iff {c : LoadedConfig} {node : JobNode} {prof : StorageConfig}
    (named : node.unmarshal.storageRef ≠ "")
    (found : c.storageProfiles node.unmarshal.storageRef = some prof) :
    FollowsProfile node prof (resolveJob c node.unmarshal).storage ↔ CarriesProfile node prof := by
  have written := unmarshal_storage_isSome node
  rw [resolveJob_storage named found]
  unfold FollowsProfile CarriesProfile
  simp only [Option.some.injEq, exists_eq_left']
  cases given : node.unmarshal.storage with
  | none =>
    have absent : node.writesStorage = false := by rw [← written, given]; rfl
    rw [absent]
    refine and_congr (forall_congr' fun field => imp_congr_right fun _ => ?_) (imp_congr_right fun _ => ?_)
    · exact storageDefaults_carries prof field
    · simp [storageDefaults]
  | some own =>
    have present : node.writesStorage = true := by rw [← written, given]; rfl
    rw [present]
    refine and_congr (forall_congr' fun field => imp_congr_right fun free => ?_)
      (imp_congr_right fun free => ?_)
    · exact mergeStorage_carries (blank_of_not_sets given free) prof
    · have lost : own.tls = none := tls_of_not_sets given free
      exact lost_iff lost

def s3Main : StorageConfig :=
  { backend := "s3", bucket := "nfrastack-backups", path := "/mysql/production/",
    fileMode := "640", dirMode := "750" }

theorem storage_s3Main :
    FollowsProfile { storage := .scalar "s3-main" } s3Main (resolveJob
      { storageProfiles := fun name => if name = "s3-main" then some s3Main else none }
      (JobNode.unmarshal { storage := .scalar "s3-main" })).storage := by
  refine (storage_followsProfile_iff (by decide) (by decide)).mpr ⟨?_, ?_⟩
  · intro field _
    cases field <;> simp [carriesKey, s3Main, StorageConfig.text]
  · intro _ _
    rfl

def azureMain : StorageConfig :=
  { backend := "azure", bucket := "backups", account := "nfrastack", key := "c2VjcmV0",
    fileMode := "600", dirMode := "700" }

/-- The account of an Azure profile does not reach the job that names it. -/
theorem azure_account_lost :
    ¬ FollowsProfile { storage := .scalar "azure-main" } azureMain (resolveJob
      { storageProfiles := fun name => if name = "azure-main" then some azureMain else none }
      (JobNode.unmarshal { storage := .scalar "azure-main" })).storage := by
  rintro ⟨s, resolved, texts, -⟩
  have account : s.account = azureMain.account := texts .account not_false
  have lost : (resolveJob
      { storageProfiles := fun name => if name = "azure-main" then some azureMain else none }
      (JobNode.unmarshal { storage := .scalar "azure-main" })).storage.map (·.account) = some "" := by
    decide
  rw [resolved, Option.map_some, account] at lost
  exact absurd lost (by decide)

/-! ### Jobs without a backup -/

/-- The job as the scheduler sees it. -/
def JobConfig.scheduled (job : JobConfig) : Scheduler.Job where
  schedule := job.schedule
  backup := job.backup.isSome
  maintenance := job.maintenanceCfg

theorem JobConfig.scheduled_backup (job : JobConfig) : job.scheduled.backup = job.backup.isSome := rfl

/-- A job with a maintenance profile and nothing about backups. -/
structure MaintenanceOnly (c : LoadedConfig) (node : JobNode) : Prop where
  backup : node.backup = .absent
  backupRef : node.others.backupRef = ""
  named : node.others.maintenance ≠ ""
  found : (c.maintenanceProfiles node.others.maintenance).isSome = true

/-- An execution maintains and does not call the backup runner. -/
def MaintainsOnly (parts : List Part) : Prop := .maintain ∈ parts ∧ .backup ∉ parts

theorem runParts_backup {loc : Location} {job : Scheduler.Job} (has : job.backup = true)
    (x : Execution) : Part.backup ∈ (runParts loc job x).1 := by
  unfold runParts
  rw [has]
  split
  · contradiction
  · split
    · exact List.mem_singleton_self _
    · split <;> exact List.mem_cons_self

/-- Every execution of a resolved job calls the backup runner, also when the job
was written for maintenance alone. -/
theorem resolved_never_maintainsOnly {c : LoadedConfig} {node : JobNode}
    (_only : MaintenanceOnly c node) (loc : Location) (x : Execution) :
    ¬ MaintainsOnly (runParts loc (resolveJob c node.unmarshal).scheduled x).1 := by
  rintro ⟨-, noBackup⟩
  apply noBackup
  apply runParts_backup
  rw [JobConfig.scheduled_backup]
  exact resolveJob_backup c node.unmarshal

/-- The profiles of the example configuration that its maintenance job uses. -/
def exampleConfig : LoadedConfig where
  databases := some fun name =>
    if name = "production-apps" then
      some { connection := "production-mysql"
             list := { included := ["app1", "app2"], excluded := ["temp"] } }
    else none
  maintenanceProfiles := fun name =>
    if name = "weekly" then some { schedule := "0 4 * * 6" } else none

def weeklyMaint : JobNode where
  others :=
    { name := "weekly-maint", databaseRef := "production-apps", maintenance := "weekly",
      schedule := some { cron := "0 4 * * 0" } }

theorem weeklyMaint_only : MaintenanceOnly exampleConfig weeklyMaint := ⟨rfl, rfl, by decide, rfl⟩

theorem weeklyMaint_never_maintainsOnly :
    MaintenanceOnly exampleConfig weeklyMaint ∧ ¬ MaintainsOnly (runParts (fixedZone 0)
      (resolveJob exampleConfig weeklyMaint.unmarshal).scheduled { backupFails := true }).1 :=
  ⟨weeklyMaint_only, resolved_never_maintainsOnly weeklyMaint_only (fixedZone 0) { backupFails := true }⟩

/-- The maintenance job of the example configuration takes a backup; when that
fails there is no maintenance at all. -/
theorem weeklyMaint_takes_backup :
    MaintenanceOnly exampleConfig weeklyMaint ∧ (runParts (fixedZone 0)
      (resolveJob exampleConfig weeklyMaint.unmarshal).scheduled { backupFails := true }).1 =
        [.backup] ∧
    ¬ MaintainsOnly (runParts (fixedZone 0)
      (resolveJob exampleConfig weeklyMaint.unmarshal).scheduled { backupFails := true }).1 := by
  have parts : (runParts (fixedZone 0) (resolveJob exampleConfig weeklyMaint.unmarshal).scheduled
      { backupFails := true }).1 = [.backup] := by
    decide
  refine ⟨weeklyMaint_only, parts, ?_⟩
  rw [parts]
  rintro ⟨-, noBackup⟩
  exact noBackup (List.mem_singleton_self _)

end DbBackup.Config.Resolve
