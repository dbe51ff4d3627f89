import DbBackup.Config.Encryption
import DbBackup.Config.TableFilter
import DbBackup.Scheduler.DueOn
import DbBackup.Scheduler.PostBackup

/-!
Owns how a job of the configuration is resolved: `JobConfig.UnmarshalYAML`,
`StorageConfig.UnmarshalYAML`, `mergeStorage` and `resolveJob`
(`internal/config/config.go`, `internal/config/jobs.go`,
`internal/config/storage.go`).

A key that is absent or null leaves the zero value of its field, and a nil
pointer is `none`. Profiles are maps from names; maps that are nil and maps that
lack a name differ for databases only.

Does not own YAML, the warnings on stderr, or the secrets that are read from
files and the environment afterwards.
-/

set_option linter.all false

namespace DbBackup.Config.Resolve

open DbBackup.Scheduler (MaintenanceConfig RetentionConfig TLSConfig)

/-! ### Settings -/

structure BackupConfig where
  strategy : String := ""
  type : String := ""
  filename : String := ""
  createLatest : Option Bool := none
  schemaOnly : Bool := false
  fullEvery : Int := 0
  fullAfter : String := ""
  unsetKeys : List String := []
deriving DecidableEq

def BackupConfig.effectiveStrategy (b : BackupConfig) : String :=
  if b.strategy ≠ "" then b.strategy else if b.type ≠ "" then b.type else "full"

structure CompressionConfig where
  type : String := ""
  level : Int := 0
  threads : Int := 0
  rsyncable : Bool := false
deriving DecidableEq

structure DatabaseList where
  included : List String := []
  excluded : List String := []
  tables : Option TableFilter := none
  routines : Option Bool := none
  events : Option Bool := none
  triggers : Option Bool := none
  views : Option Bool := none
  rawBlobs : Option Bool := none
deriving DecidableEq

/-- `DatabaseList.Excluded`. -/
def DatabaseList.excludes (d : DatabaseList) (name : String) : Bool := globMatchAny d.excluded name

structure StorageConfig extends Scheduler.StorageConfig where
  unsetKeys : List String := []
deriving DecidableEq

structure ArchiveConfig where
  last : Int := 0
  within : String := ""
  path : String := ""
  retention : Option RetentionConfig := none
  storage : Option StorageConfig := none
  storageRef : String := ""
deriving DecidableEq

structure ConnectivityConfig where
  enabled : Option Bool := none
  method : String := ""
  retryInterval : Int := 0
  timeout : Int := 0
deriving DecidableEq

structure HooksConfig where
  pre : List String := []
  post : List String := []
deriving DecidableEq

structure JobConfig where
  name : String := ""
  type : String := ""
  host : String := ""
  port : Int := 0
  user : String := ""
  pass : String := ""
  databases : Option DatabaseList := none
  schedule : Option Schedule := none
  blackout : Option (List Blackout) := none
  compression : Option CompressionConfig := none
  checksum : String := ""
  storage : Option StorageConfig := none
  tls : Option TLSConfig := none
  backup : Option BackupConfig := none
  maintenance : String := ""
  encryption : String := ""
  version : Int := 0
  influxMode : String := ""
  connectivity : Option ConnectivityConfig := none
  authSource : String := ""
  retention : Option RetentionConfig := none
  archive : Option ArchiveConfig := none
  hooks : Option HooksConfig := none
  progress : Option Bool := none
  splitDB : Bool := false
  databaseRef : String := ""
  storageRef : String := ""
  backupRef : String := ""
  archiveRef : String := ""
  encryptionType : String := ""
  encryptionIdentity : String := ""
  encryptionIdentities : List String := []
  maintenanceCfg : Option MaintenanceConfig := none
  unsetKeys : List String := []
  splitDBSet : Bool := false
deriving DecidableEq

/-- `unsetKey`. -/
def JobConfig.unsetKey (job : JobConfig) (key : String) : Bool := job.unsetKeys.contains key

/-! ### Profiles -/

structure BackupProfile where
  strategy : String := ""
  filename : String := ""
  compression : Option CompressionConfig := none
  checksum : String := ""
  retention : Option RetentionConfig := none
deriving DecidableEq

structure DbProfile where
  connection : String := ""
  name : String := ""
  list : DatabaseList := {}
deriving DecidableEq

structure ConnConfig where
  type : String := ""
  host : String := ""
  port : Int := 0
  user : String := ""
  pass : String := ""
  version : Int := 0
  influxMode : String := ""
  connectivity : Option ConnectivityConfig := none
  tls : Option TLSConfig := none
  authSource : String := ""
deriving DecidableEq

structure DefaultsConfig where
  backup : Option BackupConfig := none
  compression : Option CompressionConfig := none
  checksum : String := ""
  storage : Option StorageConfig := none
  tls : Option TLSConfig := none
  retention : Option RetentionConfig := none
  archive : Option ArchiveConfig := none
  hooks : Option HooksConfig := none
  connectivity : Option ConnectivityConfig := none
  progress : Option Bool := none
deriving DecidableEq

/-- The profiles and defaults of a configuration, after `mergeProfiles`; missing
defaults are all empty. -/
structure LoadedConfig where
  defaults : DefaultsConfig := {}
  connections : String → Option ConnConfig := fun _ => none
  databases : Option (String → Option DbProfile) := none
  storageProfiles : String → Option StorageConfig := fun _ => none
  backupProfiles : String → Option BackupProfile := fun _ => none
  maintenanceProfiles : String → Option MaintenanceConfig := fun _ => none
  encryptionProfiles : EncryptionProfiles := fun _ => none
  archiveProfiles : String → Option ArchiveConfig := fun _ => none

/-! ### Nodes -/

/-- A key of the job that takes a name or a mapping. -/
inductive RefNode (α : Type) where
  | absent
  | scalar (text : String)
  | mapping (value : α)
deriving DecidableEq

/-- A key of a mapping whose scalar may be the word `unset`. -/
inductive Setting (α : Type) where
  | absent
  | unset
  | value (value : α)
deriving DecidableEq

def Setting.get {α : Type} (setting : Setting α) (zero : α) : α :=
  match setting with
  | .absent => zero
  | .unset => zero
  | .value given => given

inductive StorageKey where
  | backend | bucket | path | endpoint | region | keyID | keySecret | account | key | url | pass
  | fileMode | dirMode | user | group
deriving DecidableEq

/-- The key in YAML. -/
def StorageKey.yaml : StorageKey → String
  | .backend => "backend"
  | .bucket => "bucket"
  | .path => "path"
  | .endpoint => "endpoint"
  | .region => "region"
  | .keyID => "key_id"
  | .keySecret => "key_secret"
  | .account => "account"
  | .key => "key"
  | .url => "url"
  | .pass => "pass"
  | .fileMode => "file_mode"
  | .dirMode => "dir_mode"
  | .user => "user"
  | .group => "group"

def StorageKey.all : List StorageKey :=
  [.backend, .bucket, .path, .endpoint, .region, .keyID, .keySecret, .account, .key, .url, .pass,
    .fileMode, .dirMode, .user, .group]

/-- The field of a key. -/
def StorageConfig.text (s : StorageConfig) : StorageKey → String
  | .backend => s.backend
  | .bucket => s.bucket
  | .path => s.path
  | .endpoint => s.endpoint
  | .region => s.region
  | .keyID => s.keyID
  | .keySecret => s.keySecret
  | .account => s.account
  | .key => s.key
  | .url => s.url
  | .pass => s.pass
  | .fileMode => s.fileMode
  | .dirMode => s.dirMode
  | .user => s.user
  | .group => s.group

structure StorageMapping where
  text : StorageKey → Setting String := fun _ => .absent
  tls : Setting (Option TLSConfig) := .absent

/-- `StorageConfig.UnmarshalYAML`. -/
def StorageMapping.unmarshal (m : StorageMapping) : StorageConfig where
  backend := (m.text .backend).get ""
  bucket := (m.text .bucket).get ""
  path := (m.text .path).get ""
  endpoint := (m.text .endpoint).get ""
  region := (m.text .region).get ""
  keyID := (m.text .keyID).get ""
  keySecret := (m.text .keySecret).get ""
  account := (m.text .account).get ""
  key := (m.text .key).get ""
  url := (m.text .url).get ""
  pass := (m.text .pass).get ""
  fileMode := (m.text .fileMode).get ""
  dirMode := (m.text .dirMode).get ""
  user := (m.text .user).get ""
  group := (m.text .group).get ""
  tls := m.tls.get none
  unsetKeys := (StorageKey.all.filter fun field => m.text field = .unset).map StorageKey.yaml

/-- The mapping of a job: the three keys that may be references, and what the
decoder makes of the others, with the keys whose scalar is `unset`. -/
structure JobNode where
  backup : RefNode BackupConfig := .absent
  storage : RefNode StorageMapping := .absent
  archive : RefNode ArchiveConfig := .absent
  others : JobConfig := {}
  /-- Whether `split_db` is a scalar other than `unset`. -/
  splitDBScalar : Bool := false

/-- The value of a key that may be a reference: a name is decoded as an empty
mapping. -/
def RefNode.decode {α β : Type} (unmarshal : α → β) (empty : β) : RefNode α → Option β
  | .absent => none
  | .scalar text => if text = "unset" then none else some empty
  | .mapping value => some (unmarshal value)

/-- The name of a reference, empty if there is none. -/
def RefNode.name {α : Type} : RefNode α → String
  | .scalar text => if text = "unset" then "" else text
  | _ => ""

def RefNode.unsets {α : Type} (node : RefNode α) (key : String) : List String :=
  match node with
  | .scalar text => if text = "unset" then [key] else []
  | _ => []

/-- `JobConfig.UnmarshalYAML`. -/
def JobNode.unmarshal (node : JobNode) : JobConfig :=
  { node.others with
    backup := node.backup.decode id {}
    storage := node.storage.decode StorageMapping.unmarshal {}
    archive := node.archive.decode id {}
    backupRef := if node.backup.name ≠ "" then node.backup.name else node.others.backupRef
    storageRef := if node.storage.name ≠ "" then node.storage.name else node.others.storageRef
    archiveRef := if node.archive.name ≠ "" then node.archive.name else node.others.archiveRef
    unsetKeys := node.others.unsetKeys ++ node.backup.unsets "backup" ++
      node.storage.unsets "storage" ++ node.archive.unsets "archive"
    splitDBSet := node.splitDBScalar }

/-! ### Resolution -/

/-- The first of two values that is set. -/
def textOr (own other : String) : String := if own = "" then other else own

/-- One field of `mergeStorage`. -/
def mergeText (unsetKeys : List String) (field : StorageKey) (own other : String) : String :=
  if !unsetKeys.contains field.yaml && own = "" then other else own

def mergeStorage (job prof : StorageConfig) : StorageConfig :=
  { job with
    backend := mergeText job.unsetKeys .backend job.backend prof.backend
    bucket := mergeText job.unsetKeys .bucket job.bucket prof.bucket
    path := mergeText job.unsetKeys .path job.path prof.path
    endpoint := mergeText job.unsetKeys .endpoint job.endpoint prof.endpoint
    region := mergeText job.unsetKeys .region job.region prof.region
    keyID := mergeText job.unsetKeys .keyID job.keyID prof.keyID
    keySecret := mergeText job.unsetKeys .keySecret job.keySecret prof.keySecret
    fileMode := mergeText job.unsetKeys .fileMode job.fileMode prof.fileMode
    dirMode := mergeText job.unsetKeys .dirMode job.dirMode prof.dirMode
    user := mergeText job.unsetKeys .user job.user prof.user
    group := mergeText job.unsetKeys .group job.group prof.group }

/-- A pointer of the job, else that of a profile or a default, unless the job
unsets the key. -/
def inherit {α : Type} (job : JobConfig) (key : String) (own other : Option α) : Option α :=
  if own.isNone && !job.unsetKey key then other else own

def mergeDatabases (job : JobConfig) (prof : DbProfile) : DatabaseList :=
  let own := job.databases.getD {}
  let free := !job.unsetKey "databases"
  let included :=
    if own.included = [] && prof.list.included ≠ [] && free then prof.list.included
    else own.included
  { included := if included = [] && prof.name ≠ "" && free then [prof.name] else included
    excluded :=
      if own.excluded = [] && prof.list.excluded ≠ [] && free then prof.list.excluded
      else own.excluded
    routines := inherit job "databases" own.routines prof.list.routines
    events := inherit job "databases" own.events prof.list.events
    triggers := inherit job "databases" own.triggers prof.list.triggers
    views := inherit job "databases" own.views prof.list.views
    rawBlobs := inherit job "databases" own.rawBlobs prof.list.rawBlobs
    tables := inherit job "tables" own.tables prof.list.tables }

def mergeConnection (job : JobConfig) (conn : ConnConfig) : JobConfig :=
  let text (key own other : String) := if own = "" && !job.unsetKey key then other else own
  { job with
    type := text "type" job.type conn.type
    host := text "host" job.host conn.host
    port := if job.port = 0 && !job.unsetKey "port" then conn.port else job.port
    user := text "user" job.user conn.user
    pass := text "pass" job.pass conn.pass
    version := if job.version = 0 && !job.unsetKey "version" then conn.version else job.version
    influxMode := text "influx_mode" job.influxMode conn.influxMode
    authSource := text "auth_source" job.authSource conn.authSource
    tls := inherit job "tls" job.tls conn.tls }

/-- The database profile and its connection, with the connectivity the connection
asks for. -/
def resolveDatabase (c : LoadedConfig) (job : JobConfig) : JobConfig × Option ConnectivityConfig :=
  if job.databaseRef = "" then (job, none)
  else
    match c.databases with
    | none =>
      if job.databases.isNone then
        ({ job with databases := some { included := [job.databaseRef] } }, none)
      else (job, none)
    | some profiles =>
      match profiles job.databaseRef with
      | none =>
        let own := job.databases.getD {}
        let named :=
          if own.included = [] then { own with included := [job.databaseRef] } else own
        ({ job with databases := some named }, none)
      | some prof =>
        let merged := { job with databases := some (mergeDatabases job prof) }
        match if prof.connection = "" then none else c.connections prof.connection with
        | none => (merged, none)
        | some conn =>
          (mergeConnection merged conn,
            if job.unsetKey "connectivity" then none else conn.connectivity)

def resolveSplit (job : JobConfig) : JobConfig :=
  if job.splitDBSet then job else { job with splitDB := true }

def resolveBlackout (job : JobConfig) : JobConfig :=
  if job.blackout.getD [] = [] then job
  else
    let schedule := job.schedule.getD {}
    let blocked :=
      if schedule.blackout.getD [] = [] then { schedule with blackout := job.blackout }
      else schedule
    { job with schedule := some blocked }

def resolveEncryption (c : LoadedConfig) (job : JobConfig) : JobConfig :=
  match if job.encryption = "" then none else c.encryptionProfiles job.encryption with
  | none => job
  | some prof =>
    if prof.passphrase ≠ "" then
      { job with
        encryptionType := prof.type
        encryptionIdentity := prof.passphrase
        encryptionIdentities := [prof.passphrase] }
    else { job with encryptionType := prof.type, encryptionIdentities := prof.recipients }

def mergeBackup (own : BackupConfig) (prof : BackupProfile) : BackupConfig :=
  { own with
    strategy :=
      if !own.unsetKeys.contains "strategy" && own.strategy = "" then prof.strategy
      else own.strategy
    filename :=
      if !own.unsetKeys.contains "filename" && own.filename = "" then prof.filename
      else own.filename }

def resolveBackup (c : LoadedConfig) (job : JobConfig) : JobConfig :=
  match if job.backupRef = "" then none else c.backupProfiles job.backupRef with
  | none => job
  | some prof =>
    { job with
      backup := some (mergeBackup (job.backup.getD {}) prof)
      compression := inherit job "compression" job.compression prof.compression
      checksum :=
        if job.checksum = "" && !job.unsetKey "checksum" then prof.checksum else job.checksum
      retention := inherit job "retention" job.retention prof.retention }

def resolveStorageRef (c : LoadedConfig) (job : JobConfig) : JobConfig :=
  match if job.storageRef = "" then none else c.storageProfiles job.storageRef with
  | none => job
  | some prof =>
    match job.storage with
    | none => { job with storage := some prof }
    | some own => { job with storage := some (mergeStorage own prof) }

def resolveCompression (c : LoadedConfig) (job : JobConfig) : JobConfig :=
  let chosen := (job.compression.or c.defaults.compression).getD
    { type := "zstd", level := 3, threads := 1 }
  if job.unsetKey "compression" then { job with compression := some {} }
  else
    let level := if chosen.level = 0 then 3 else chosen.level
    { job with compression := some { chosen with type := textOr chosen.type "zstd", level } }

def resolveChecksum (c : LoadedConfig) (job : JobConfig) : JobConfig :=
  if job.checksum ≠ "" then job
  else if !job.unsetKey "checksum" && c.defaults.checksum ≠ "" then
    { job with checksum := c.defaults.checksum }
  else { job with checksum := "md5" }

/-- What is filled in where the storage leaves it out. -/
def storageDefaults (s : StorageConfig) : StorageConfig :=
  { s with
    backend :=
      if s.backend = "" && s.unsetKeys.contains StorageKey.backend.yaml then "filesystem"
      else s.backend
    fileMode := textOr s.fileMode "600"
    dirMode := textOr s.dirMode "700" }

def resolveStorageDefaults (c : LoadedConfig) (job : JobConfig) : JobConfig :=
  let chosen := (inherit job "storage" job.storage c.defaults.storage).getD
    { backend := "filesystem" }
  { job with storage := some (storageDefaults chosen) }

def resolveTLS (c : LoadedConfig) (job : JobConfig) : JobConfig :=
  { job with tls := some ((inherit job "tls" job.tls c.defaults.tls).getD {}) }

def resolveBackupDefault (c : LoadedConfig) (job : JobConfig) : JobConfig :=
  { job with backup := some ((inherit job "backup" job.backup c.defaults.backup).getD {}) }

def resolveConnectivity (c : LoadedConfig) (connection : Option ConnectivityConfig)
    (job : JobConfig) : JobConfig :=
  let inherited := connection.or c.defaults.connectivity
  let chosen := (inherit job "connectivity" job.connectivity inherited).getD
    { enabled := some true, method := "full", retryInterval := 5, timeout := 30 }
  { job with connectivity := some chosen }

def resolveMaintenance (c : LoadedConfig) (job : JobConfig) : JobConfig :=
  match if job.maintenance = "" then none else c.maintenanceProfiles job.maintenance with
  | none => job
  | some prof => { job with maintenanceCfg := some prof }

/-- `ArchiveConfig.resolveStorage`. -/
def ArchiveConfig.resolveStorage (c : LoadedConfig) (a : ArchiveConfig) : ArchiveConfig :=
  if a.storageRef = "" then a
  else { a with storage := c.storageProfiles a.storageRef, storageRef := "" }

def resolveArchiveRef (c : LoadedConfig) (job : JobConfig) : JobConfig :=
  match if job.archiveRef = "" then none else c.archiveProfiles job.archiveRef with
  | none => job
  | some prof => { job with archive := some prof }

/-- The defaults that are taken as they are. -/
def resolveDefaults (c : LoadedConfig) (job : JobConfig) : JobConfig :=
  { job with
    retention := inherit job "retention" job.retention c.defaults.retention
    archive := (inherit job "archive" job.archive c.defaults.archive).map
      (ArchiveConfig.resolveStorage c)
    hooks := inherit job "hooks" job.hooks c.defaults.hooks
    progress := inherit job "progress" job.progress c.defaults.progress }

def resolveJob (c : LoadedConfig) (start : JobConfig) : JobConfig :=
  let (job, connection) := resolveDatabase c start
  let job := resolveEncryption c (resolveBlackout (resolveSplit job))
  let job := resolveStorageRef c (resolveBackup c job)
  let job := resolveStorageDefaults c (resolveChecksum c (resolveCompression c job))
  let job := resolveBackupDefault c (resolveTLS c job)
  let job := resolveArchiveRef c (resolveMaintenance c (resolveConnectivity c connection job))
  resolveDefaults c job

/-! ### What resolution leaves alone -/

/-- The settings the later steps go by are those of the job. -/
structure Kept (job other : JobConfig) : Prop where
  storage : other.storage = job.storage
  storageRef : other.storageRef = job.storageRef
  unsetKeys : other.unsetKeys = job.unsetKeys
  maintenance : other.maintenance = job.maintenance

theorem Kept.refl (job : JobConfig) : Kept job job := ⟨rfl, rfl, rfl, rfl⟩

theorem Kept.trans {first second third : JobConfig} (one : Kept first second)
    (two : Kept second third) : Kept first third where
  storage := two.storage.trans one.storage
  storageRef := two.storageRef.trans one.storageRef
  unsetKeys := two.unsetKeys.trans one.unsetKeys
  maintenance := two.maintenance.trans one.maintenance

theorem kept_resolveDatabase (c : LoadedConfig) (job : JobConfig) :
    Kept job (resolveDatabase c job).1 := by
  unfold resolveDatabase
  repeat' split
  all_goals exact ⟨rfl, rfl, rfl, rfl⟩

theorem kept_resolveSplit (job : JobConfig) : Kept job (resolveSplit job) := by
  unfold resolveSplit
  split
  · exact Kept.refl job
  · exact ⟨rfl, rfl, rfl, rfl⟩

theorem kept_resolveBlackout (job : JobConfig) : Kept job (resolveBlackout job) := by
  unfold resolveBlackout
  split
  · exact Kept.refl job
  · exact ⟨rfl, rfl, rfl, rfl⟩

theorem kept_resolveEncryption (c : LoadedConfig) (job : JobConfig) :
    Kept job (resolveEncryption c job) := by
  unfold resolveEncryption
  split
  · exact Kept.refl job
  · split
    · exact ⟨rfl, rfl, rfl, rfl⟩
    · exact ⟨rfl, rfl, rfl, rfl⟩

theorem kept_resolveBackup (c : LoadedConfig) (job : JobConfig) : Kept job (resolveBackup c job) := by
  unfold resolveBackup
  split
  · exact Kept.refl job
  · exact ⟨rfl, rfl, rfl, rfl⟩

theorem kept_resolveCompression (c : LoadedConfig) (job : JobConfig) :
    Kept job (resolveCompression c job) := by
  unfold resolveCompression
  dsimp only
  split
  · exact ⟨rfl, rfl, rfl, rfl⟩
  · exact ⟨rfl, rfl, rfl, rfl⟩

theorem kept_resolveChecksum (c : LoadedConfig) (job : JobConfig) :
    Kept job (resolveChecksum c job) := by
  unfold resolveChecksum
  split
  · exact Kept.refl job
  · split
    · exact ⟨rfl, rfl, rfl, rfl⟩
    · exact ⟨rfl, rfl, rfl, rfl⟩

/-- The steps before the storage is looked up. -/
theorem kept_before_storage (c : LoadedConfig) (job : JobConfig) : Kept job (resolveBackup c
      (resolveEncryption c (resolveBlackout (resolveSplit (resolveDatabase c job).1)))) :=
  (kept_resolveDatabase c job).trans <| (kept_resolveSplit _).trans <|
    (kept_resolveBlackout _).trans <| (kept_resolveEncryption c _).trans (kept_resolveBackup c _)

/-! ### What resolution settles -/

@[simp] theorem resolveDefaults_storage (c : LoadedConfig) (job : JobConfig) :
    (resolveDefaults c job).storage = job.storage := rfl

@[simp] theorem resolveDefaults_backup (c : LoadedConfig) (job : JobConfig) :
    (resolveDefaults c job).backup = job.backup := rfl

@[simp] theorem resolveArchiveRef_storage (c : LoadedConfig) (job : JobConfig) :
    (resolveArchiveRef c job).storage = job.storage := by
  unfold resolveArchiveRef
  split <;> rfl

@[simp] theorem resolveArchiveRef_backup (c : LoadedConfig) (job : JobConfig) :
    (resolveArchiveRef c job).backup = job.backup := by
  unfold resolveArchiveRef
  split <;> rfl

@[simp] theorem resolveMaintenance_storage (c : LoadedConfig) (job : JobConfig) :
    (resolveMaintenance c job).storage = job.storage := by
  unfold resolveMaintenance
  split <;> rfl

@[simp] theorem resolveMaintenance_backup (c : LoadedConfig) (job : JobConfig) :
    (resolveMaintenance c job).backup = job.backup := by
  unfold resolveMaintenance
  split <;> rfl

@[simp] theorem resolveConnectivity_storage (c : LoadedConfig)
    (connection : Option ConnectivityConfig) (job : JobConfig) :
    (resolveConnectivity c connection job).storage = job.storage := rfl

@[simp] theorem resolveConnectivity_backup (c : LoadedConfig)
    (connection : Option ConnectivityConfig) (job : JobConfig) :
    (resolveConnectivity c connection job).backup = job.backup := rfl

@[simp] theorem resolveBackupDefault_storage (c : LoadedConfig) (job : JobConfig) :
    (resolveBackupDefault c job).storage = job.storage := rfl

@[simp] theorem resolveTLS_storage (c : LoadedConfig) (job : JobConfig) :
    (resolveTLS c job).storage = job.storage := rfl

variable {job : JobConfig}

/-- A storage that is there when the defaults are looked at is kept. -/
theorem resolveStorageDefaults_storage {c : LoadedConfig} {own : StorageConfig}
    (given : job.storage = some own) :
    (resolveStorageDefaults c job).storage = some (storageDefaults own) := by
  unfold resolveStorageDefaults
  simp [inherit, given]

theorem resolveStorageRef_storage {c : LoadedConfig} {prof : StorageConfig}
    (named : job.storageRef ≠ "") (found : c.storageProfiles job.storageRef = some prof) :
    (resolveStorageRef c job).storage =
      some (job.storage.elim prof fun own => mergeStorage own prof) := by
  unfold resolveStorageRef
  rw [if_neg named, found]
  cases job.storage with
  | none => rfl
  | some own => rfl

/-- The storage a job that names a profile ends up with. -/
theorem resolveJob_storage {c : LoadedConfig} {prof : StorageConfig}
    (named : job.storageRef ≠ "") (found : c.storageProfiles job.storageRef = some prof) :
    (resolveJob c job).storage =
      some (storageDefaults (job.storage.elim prof fun own => mergeStorage own prof)) := by
  have before := kept_before_storage c job
  have later (other : JobConfig) :=
    (kept_resolveCompression c other).trans (kept_resolveChecksum c _)
  unfold resolveJob
  simp only [resolveDefaults_storage, resolveArchiveRef_storage, resolveMaintenance_storage,
    resolveConnectivity_storage, resolveBackupDefault_storage, resolveTLS_storage]
  apply resolveStorageDefaults_storage
  rw [(later _).storage, resolveStorageRef_storage, before.storage]
  · rw [before.storageRef]
    exact named
  · rw [before.storageRef]
    exact found

/-- Whatever the job says of backups, it has a backup section in the end. -/
theorem resolveJob_backup (c : LoadedConfig) (job : JobConfig) :
    (resolveJob c job).backup.isSome = true := by
  unfold resolveJob
  simp only [resolveDefaults_backup, resolveArchiveRef_backup, resolveMaintenance_backup,
    resolveConnectivity_backup]
  rfl

end DbBackup.Config.Resolve
