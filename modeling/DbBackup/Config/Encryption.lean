import DbBackup.Pipeline.Codec

/-!
Owns how the `encryption` setting of a job becomes the type `Run` encrypts
with: the scalar read by `UnmarshalYAML`, the merged profiles, `resolveJob`,
`ValidateWithEncryptionProfiles` and the parse in the runner
(`internal/config/config.go`, `internal/config/jobs.go`).

A job node holds what the decoder leaves and, as data, the answers of the
checks that come after the encryption check (schedule, retention). Contract:
which jobs of a configuration that loads are encrypted as they ask.

Does not own the rest of `resolveJob`; the type of a job is the one it resolves
to.
-/

set_option linter.all false

namespace DbBackup.Config

open Lib.GoString Pipeline

structure EncryptionConfig where
  type : String
  recipients : List String := []
  passphrase : String := ""
deriving DecidableEq

/-- A map of profiles; `none` for a name that is not in it. -/
abbrev EncryptionProfiles := String → Option EncryptionConfig

/-- A job of the YAML document. Scalars are `none` where the key is absent or
null. -/
structure JobNode where
  name : String
  type : String
  encryption : Option String := none
  compression : Option String := none
  scheduleError : Option String := none
  retentionError : Option String := none
deriving DecidableEq

structure JobConfig where
  name : String
  type : String
  encryption : String := ""
  compression : String := ""
  encryptionType : String := ""
  encryptionIdentity : String := ""
  encryptionIdentities : List String := []
deriving DecidableEq

/-- The `Config` the decoder leaves. -/
structure Document where
  jobs : List JobNode
  /-- `profiles.encryption` of the document. -/
  nestedProfiles : EncryptionProfiles
  /-- The profiles already at the top level, which the decoder leaves empty. -/
  flatProfiles : EncryptionProfiles := fun _ => none
  hasRestore : Bool := false

/-! ### Loading -/

/-- The `unset` marker reads as null. -/
def decodeScalar : Option String → String
  | none => ""
  | some value => if value = "unset" then "" else value

def decodeJob (node : JobNode) : JobConfig where
  name := node.name
  type := node.type
  encryption := decodeScalar node.encryption
  compression := decodeScalar node.compression

/-- A profile that exists at the top level wins over one of the same name. -/
def mergeProfileMaps (flat nested : EncryptionProfiles) : EncryptionProfiles :=
  fun name => (flat name).or (nested name)

def Document.encryptionProfiles (cfg : Document) : EncryptionProfiles :=
  mergeProfileMaps cfg.flatProfiles cfg.nestedProfiles

/-- The encryption part of `resolveJob`. A name without a profile prints a
warning and leaves the job as it is. -/
def resolveEncryption (profiles : EncryptionProfiles) (job : JobConfig) : JobConfig :=
  if job.encryption = "" then job
  else
    match profiles job.encryption with
    | none => job
    | some prof =>
      if prof.passphrase = "" then
        { job with encryptionType := prof.type, encryptionIdentities := prof.recipients }
      else
        { job with
          encryptionType := prof.type
          encryptionIdentity := prof.passphrase
          encryptionIdentities := [prof.passphrase] }

def validEncryptionTypes : List String :=
  ["", "none", "age", "gpg", "openpgp", "pgp", "openssl"]

def validCompressionTypes : List String :=
  ["", "none", "gz", "gzip", "bz", "bzip", "bzip2", "xz", "xzip", "zst", "zstd"]

inductive ConfigError where
  | noName
  | noType (job : String)
  | unknownEncryption (job type : String)
  | unknownCompression (job type : String)
  | schedule (job cause : String)
  | retention (job cause : String)
  | noJobs
deriving DecidableEq

def ConfigError.text : ConfigError → String
  | .noName => "job has no name (every job needs a unique 'name' field)"
  | .noType job => "job \"" ++ job ++ "\" has no database type (set 'type' to " ++
      "mysql/postgres/mongodb/etc, or reference a 'database' profile)"
  | .unknownEncryption job type =>
    "job \"" ++ job ++ "\" has unknown encryption type \"" ++ type ++
      "\" (want none|age|gpg|openssl)"
  | .unknownCompression job type =>
    "job \"" ++ job ++ "\" has unknown compression type \"" ++ type ++
      "\" (want none|gz|bz|xz|zstd)"
  | .schedule job cause => "job \"" ++ job ++ "\" schedule: " ++ cause
  | .retention job cause => "job \"" ++ job ++ "\" retention.within: " ++ cause
  | .noJobs => "no backup jobs or restore target configured"

/-- The type the encryption check looks at: that of the named profile, or the
setting itself. -/
def checkedType (profiles : EncryptionProfiles) (job : JobConfig) : String :=
  ((profiles job.encryption).map EncryptionConfig.type).getD job.encryption

def validateWithEncryptionProfiles (profiles : EncryptionProfiles) (node : JobNode)
    (job : JobConfig) : Except ConfigError Unit :=
  if job.name = "" then .error .noName
  else if job.type = "" then .error (.noType job.name)
  else if job.encryption ≠ "" ∧ checkedType profiles job ∉ validEncryptionTypes then
    .error (.unknownEncryption job.name (checkedType profiles job))
  else if toLower job.compression ∉ validCompressionTypes then
    .error (.unknownCompression job.name job.compression)
  else
    match node.scheduleError, node.retentionError with
    | some cause, _ => .error (.schedule job.name cause)
    | none, some cause => .error (.retention job.name cause)
    | none, none => .ok ()

def loadJob (profiles : EncryptionProfiles) (node : JobNode) : Except ConfigError JobConfig := do
  let job := resolveEncryption profiles (decodeJob node)
  validateWithEncryptionProfiles profiles node job
  return job

def loadConfig (cfg : Document) : Except ConfigError (List JobConfig) := do
  let jobs ← cfg.jobs.mapM (loadJob cfg.encryptionProfiles)
  if jobs = [] ∧ cfg.hasRestore = false then .error .noJobs else return jobs

/-! ### What a job asks for -/

/-- The type the runner encrypts with. -/
def runEncryption (job : JobConfig) : Encryption := Encryption.parse job.encryptionType

/-- The type the setting, or the profile it names, asks for. -/
def askedEncryption (profiles : EncryptionProfiles) (job : JobConfig) : Encryption :=
  Encryption.parse (checkedType profiles job)

/-- The job is encrypted, and as it asks. -/
def EncryptsAsAsked (cfg : Document) (job : JobConfig) : Prop :=
  runEncryption job ≠ .none ∧ runEncryption job = askedEncryption cfg.encryptionProfiles job

/-- The setting names a profile of the configuration, and that profile sets a
type. -/
def NamesTypedProfile (cfg : Document) (job : JobConfig) : Prop :=
  ∃ prof, cfg.encryptionProfiles job.encryption = some prof ∧ prof.type ≠ "" ∧ prof.type ≠ "none"

/-! ### Loaded jobs -/

theorem exists_of_mem_mapM {α β ε : Type} {load : α → Except ε β} {inputs : List α}
    {outputs : List β} (loaded : inputs.mapM load = .ok outputs) {output : β}
    (member : output ∈ outputs) : ∃ input ∈ inputs, load input = .ok output := by
  induction inputs generalizing outputs with
  | nil =>
    have noOutputs : outputs = [] := (Except.ok.inj loaded).symm
    simp [noOutputs] at member
  | cons input rest ih =>
    rw [List.mapM_cons] at loaded
    cases first : load input with
    | error failure =>
      rw [first] at loaded
      exact absurd loaded (by simp [bind, Except.bind])
    | ok value =>
      cases others : rest.mapM load with
      | error failure =>
        rw [first, others] at loaded
        exact absurd loaded (by simp [bind, Except.bind])
      | ok values =>
        rw [first, others] at loaded
        have isOutputs : value :: values = outputs := Except.ok.inj loaded
        rw [← isOutputs] at member
        rcases List.mem_cons.mp member with isValue | inValues
        · exact ⟨input, by simp, by rw [first, isValue]⟩
        · obtain ⟨source, sourceMember, sourceLoaded⟩ := ih others inValues
          exact ⟨source, by simp [sourceMember], sourceLoaded⟩

variable {job : JobConfig}

theorem loadConfig_job {cfg : Document} {jobs : List JobConfig} (loaded : loadConfig cfg = .ok jobs)
    (member : job ∈ jobs) :
    ∃ node ∈ cfg.jobs, loadJob cfg.encryptionProfiles node = .ok job := by
  unfold loadConfig at loaded
  cases each : cfg.jobs.mapM (loadJob cfg.encryptionProfiles) with
  | error failure =>
    rw [each] at loaded
    exact absurd loaded (by simp [bind, Except.bind])
  | ok found =>
    rw [each] at loaded
    have sameJobs : found = jobs := by
      by_cases nothing : found = [] ∧ cfg.hasRestore = false
      · simp [bind, Except.bind, nothing] at loaded
      · simpa [bind, Except.bind, nothing, pure, Except.pure] using loaded
    rw [← sameJobs] at member
    exact exists_of_mem_mapM each member

variable {profiles : EncryptionProfiles} {node : JobNode}

theorem loadJob_eq_ok (loaded : loadJob profiles node = .ok job) :
    job = resolveEncryption profiles (decodeJob node) ∧
      validateWithEncryptionProfiles profiles node job = .ok () := by
  unfold loadJob at loaded
  cases checked : validateWithEncryptionProfiles profiles node
      (resolveEncryption profiles (decodeJob node)) with
  | error failure =>
    simp [checked, bind, Except.bind] at loaded
  | ok done =>
    have isJob : resolveEncryption profiles (decodeJob node) = job := by
      simpa [checked, bind, Except.bind, pure, Except.pure] using loaded
    rw [← isJob]
    exact ⟨rfl, checked⟩

theorem resolveEncryption_encryption (profiles : EncryptionProfiles) (job : JobConfig) :
    (resolveEncryption profiles job).encryption = job.encryption := by
  unfold resolveEncryption
  split
  · rfl
  · split
    · rfl
    · split <;> rfl

/-- After loading, the type of a job is that of its profile, and empty without
one. -/
theorem loadJob_encryptionType
    (loaded : loadJob profiles node = .ok job) (set : job.encryption ≠ "") :
    job.encryptionType = ((profiles job.encryption).map EncryptionConfig.type).getD "" := by
  obtain ⟨isJob, -⟩ := loadJob_eq_ok loaded
  have sameSetting : job.encryption = (decodeJob node).encryption := by
    rw [isJob, resolveEncryption_encryption]
  rw [sameSetting] at set ⊢
  rw [isJob]
  unfold resolveEncryption
  rw [if_neg set]
  cases named : profiles (decodeJob node).encryption with
  | none => simp [decodeJob]
  | some prof =>
    dsimp only
    split <;> rfl

theorem loadJob_checkedType (loaded : loadJob profiles node = .ok job) (set : job.encryption ≠ "") :
    checkedType profiles job ∈ validEncryptionTypes := by
  obtain ⟨-, checked⟩ := loadJob_eq_ok loaded
  by_contra unknown
  unfold validateWithEncryptionProfiles at checked
  rw [if_pos (⟨set, unknown⟩ : job.encryption ≠ "" ∧ _)] at checked
  split at checked
  · simp at checked
  · split at checked <;> simp at checked

/-- Of the types that pass the check, all but the empty one and `none` parse to
a cipher. -/
theorem parse_valid_eq_none {type : String} (valid : type ∈ validEncryptionTypes) :
    Encryption.parse type = .none ↔ type = "" ∨ type = "none" := by
  have all : ∀ type ∈ validEncryptionTypes,
      Encryption.parse type = .none ↔ type = "" ∨ type = "none" := by decide
  exact all type valid

theorem loadConfig_encrypts_iff (cfg : Document) (jobs : List JobConfig)
    (loaded : loadConfig cfg = .ok jobs) (job : JobConfig) (member : job ∈ jobs)
    (set : job.encryption ≠ "") :
    EncryptsAsAsked cfg job ↔ NamesTypedProfile cfg job := by
  obtain ⟨node, -, jobLoaded⟩ := loadConfig_job loaded member
  have isType := loadJob_encryptionType jobLoaded set
  have valid := loadJob_checkedType jobLoaded set
  unfold EncryptsAsAsked NamesTypedProfile runEncryption askedEncryption
  rw [isType]
  unfold checkedType at valid ⊢
  cases named : cfg.encryptionProfiles job.encryption with
  | none =>
    have unencrypted : Encryption.parse "" = .none := by decide
    simp [unencrypted]
  | some prof =>
    simp only [named, Option.map_some, Option.getD_some] at valid
    simp only [Option.map_some, Option.getD_some, and_true, Option.some.injEq, exists_eq_left',
      ne_eq, parse_valid_eq_none valid, not_or]

/-! ### A setting that names a cipher -/

def ageJob : JobNode where
  name := "nightly"
  type := "mysql"
  encryption := some "age"

def withoutProfiles : Document where
  jobs := [ageJob]
  nestedProfiles _ := none

def withProfile : Document where
  jobs := [{ ageJob with encryption := some "offsite" }]
  nestedProfiles name :=
    if name = "offsite" then some { type := "age", recipients := ["age1recipient"] } else none

def offsiteJob : JobConfig where
  name := "nightly"
  type := "mysql"
  encryption := "offsite"
  encryptionType := "age"
  encryptionIdentities := ["age1recipient"]

theorem loadConfig_encrypts_withProfile :
    loadConfig withProfile = .ok [offsiteJob] ∧ EncryptsAsAsked withProfile offsiteJob := by
  have loaded : loadConfig withProfile = .ok [offsiteJob] := by decide
  refine ⟨loaded, ?_⟩
  refine (loadConfig_encrypts_iff withProfile [offsiteJob] loaded offsiteJob (by simp)
    (by decide)).mpr ⟨{ type := "age", recipients := ["age1recipient"] }, by decide, ?_⟩
  decide

/-- The document loads, the job asks for `age`, and the runner gets no cipher. -/
theorem encryption_age_without_profile :
    ∃ job, loadConfig withoutProfiles = .ok [job] ∧ job.encryption = "age" ∧
      runEncryption job = .none :=
  ⟨{ name := "nightly", type := "mysql", encryption := "age" }, by decide, rfl, by decide⟩

end DbBackup.Config
