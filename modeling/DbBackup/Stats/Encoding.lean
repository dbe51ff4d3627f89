import DbBackup.Config.Schedule
import DbBackup.Pipeline.Codec

/-!
Owns the codes of a usage report: what each setting of a job is encoded as, and
the names a reader shows for the codes (`internal/stats/encoding.go` and the
tables of `decode.go`).

Contract: every code is read as the name of what it stands for, and no code
holds a delimiter of the report (`CodeTable.Sound`).
-/

set_option linter.all false

namespace DbBackup.Stats

open Lib.GoString Pipeline

/-! ### Tables -/

/-- The texts that separate tokens, jobs, fields, servers and the parts of a
server. -/
def isDelimiter (c : Char) : Bool :=
  isSpace c || c = '|' || c = ':' || c = ',' || c = '/'

def Plain (text : String) : Prop := text.toList.all (fun c => !isDelimiter c) = true

instance (text : String) : Decidable (Plain text) := inferInstanceAs (Decidable (_ = _))

def decodeName (code : String) (table : List (String × String)) : String :=
  match table.lookup code with
  | some name => name
  | none => if code = "" then "unknown" else "unknown (" ++ code ++ ")"

/-- Every kind's code is read as the kind's name. -/
def CodeTable.Sound {Kind : Type} (table : List (String × String)) (code name : Kind → String) : Prop :=
  ∀ kind, decodeName (code kind) table = name kind ∧ Plain (code kind)

def normalize (text : String) : String :=
  String.ofList ((text.toList.filter fun c => c ≠ ' ' && c ≠ '-' && c ≠ '_').map Char.toLower)

/-! ### Databases -/

inductive DbType where
  | couch | influx | mssql | mariadb | mongo | mysql | postgres | redis | sqlite | other
deriving DecidableEq

def DbType.code : DbType → String
  | .couch => "c"
  | .influx => "i"
  | .mssql => "s"
  | .mariadb => "a"
  | .mongo => "o"
  | .mysql => "m"
  | .postgres => "p"
  | .redis => "r"
  | .sqlite => "q"
  | .other => "?"

def DbType.name : DbType → String
  | .couch => "couchdb"
  | .influx => "influxdb"
  | .mssql => "mssql"
  | .mariadb => "mariadb"
  | .mongo => "mongodb"
  | .mysql => "mysql"
  | .postgres => "postgresql"
  | .redis => "redis"
  | .sqlite => "sqlite"
  | .other => "unknown engine"

def dbTypeNames : List (String × String) :=
  [("c", "couchdb"), ("i", "influxdb"), ("s", "mssql"), ("a", "mariadb"), ("o", "mongodb"),
    ("m", "mysql"), ("p", "postgresql"), ("r", "redis"), ("q", "sqlite"), ("?", "unknown engine")]

theorem dbTypeNames_sound : CodeTable.Sound dbTypeNames DbType.code DbType.name := by
  intro kind
  cases kind <;> decide

def dbType (text : String) : DbType :=
  let name := normalize text
  if name = "couch" ∨ name = "couchdb" then .couch
  else if name = "influx" ∨ name = "influxdb" then .influx
  else if name = "mysql" then .mysql
  else if name = "mariadb" then .mariadb
  else if name = "mongo" ∨ name = "mongodb" then .mongo
  else if name = "mssql" ∨ name = "microsoftsql" then .mssql
  else if name = "postgres" ∨ name = "postgresql" ∨ name = "pgsql" then .postgres
  else if name = "redis" then .redis
  else if name = "sqlite" ∨ name = "sqlite3" then .sqlite
  else .other

def dbTypeCode (text : String) : String := (dbType text).code

/-! ### Strategies -/

inductive Strategy where
  | full | incremental | differential | other
deriving DecidableEq

def Strategy.code : Strategy → String
  | .full => "f"
  | .incremental => "n"
  | .differential => "d"
  | .other => "?"

def Strategy.name : Strategy → String
  | .full => "full"
  | .incremental => "incremental"
  | .differential => "differential"
  | .other => "unknown"

def strategyNames : List (String × String) :=
  [("f", "full"), ("n", "incremental"), ("d", "differential"), ("?", "unknown")]

theorem strategyNames_sound : CodeTable.Sound strategyNames Strategy.code Strategy.name := by
  intro kind
  cases kind <;> decide

def strategy (text : String) : Strategy :=
  let name := normalize text
  if name = "full" then .full
  else if name = "incremental" ∨ name = "incr" then .incremental
  else if name = "differential" ∨ name = "diff" then .differential
  else .other

def strategyCode (text : String) : String := (strategy text).code

/-! ### Compression, checksums, encryption -/

def compressionName : Compression → String
  | .none => "none"
  | .gzip => "gzip"
  | .zstd => "zstd"
  | .xzip => "xz"
  | .bzip2 => "bzip2"

def compressionKindCode : Compression → String
  | .none => "0"
  | .gzip => "g"
  | .zstd => "z"
  | .xzip => "x"
  | .bzip2 => "b"

def compressionNames : List (String × String) :=
  [("0", "none"), ("g", "gzip"), ("z", "zstd"), ("x", "xz"), ("b", "bzip2"), ("?", "unknown")]

theorem compressionNames_sound :
    CodeTable.Sound compressionNames compressionKindCode compressionName := by
  intro kind
  cases kind <;> decide

def compressionCode (text : String) : String := compressionKindCode (Compression.parse text)

inductive Checksum where
  | none | md5 | sha1 | other
deriving DecidableEq

def Checksum.code : Checksum → String
  | .none => "0"
  | .md5 => "m"
  | .sha1 => "s"
  | .other => "?"

def Checksum.name : Checksum → String
  | .none => "none"
  | .md5 => "md5"
  | .sha1 => "sha1"
  | .other => "unknown"

def checksumNames : List (String × String) :=
  [("0", "none"), ("m", "md5"), ("s", "sha1"), ("?", "unknown")]

theorem checksumNames_sound : CodeTable.Sound checksumNames Checksum.code Checksum.name := by
  intro kind
  cases kind <;> decide

/-- The switch of `checksumCode` over `checksum.Parse`. -/
def checksum (text : String) : Checksum :=
  if text = "" then .none
  else if toLower text = "md5" then .md5
  else if toLower text = "sha1" ∨ toLower text = "sha-1" then .sha1
  else if equalFold text "none" then .none
  else .other

def checksumCode (text : String) : String := (checksum text).code

def encryptionName : Encryption → String
  | .none => "none"
  | .age => "age"
  | .openPGP => "openpgp"
  | .openSSL => "openssl"

def encryptionKindCode : Encryption → String
  | .none => "0"
  | .age => "e"
  | .openPGP => "p"
  | .openSSL => "o"

def encryptionNames : List (String × String) :=
  [("0", "none"), ("e", "age"), ("p", "openpgp"), ("o", "openssl"), ("?", "unknown")]

theorem encryptionNames_sound :
    CodeTable.Sound encryptionNames encryptionKindCode encryptionName := by
  intro kind
  cases kind <;> decide

def encryptionCode (text : String) : String := encryptionKindCode (Encryption.parse text)

inductive EncryptionMode where
  | none | recipients | passphrase | identity
deriving DecidableEq

def EncryptionMode.code : EncryptionMode → String
  | .none => "0"
  | .recipients => "r"
  | .passphrase => "s"
  | .identity => "i"

def EncryptionMode.name : EncryptionMode → String
  | .none => "none"
  | .recipients => "recipients"
  | .passphrase => "passphrase"
  | .identity => "identity"

def encryptionModeNames : List (String × String) :=
  [("0", "none"), ("r", "recipients"), ("s", "passphrase"), ("i", "identity")]

theorem encryptionModeNames_sound :
    CodeTable.Sound encryptionModeNames EncryptionMode.code EncryptionMode.name := by
  intro kind
  cases kind <;> decide

def encryptionMode (text identity : String) (identities : List String) : EncryptionMode :=
  match Encryption.parse text with
  | .none => .none
  | .openSSL => .passphrase
  | .age => if identity ≠ "" then .identity else .recipients
  | .openPGP => if identity ≠ "" ∨ identities = [] then .passphrase else .recipients

def encryptionModeCode (text identity : String) (identities : List String) : String :=
  (encryptionMode text identity identities).code

/-! ### Storage -/

inductive StorageKind where
  | filesystem | s3 | azure | gcs | webdav | other
deriving DecidableEq

def StorageKind.code : StorageKind → String
  | .filesystem => "f"
  | .s3 => "s"
  | .azure => "a"
  | .gcs => "g"
  | .webdav => "w"
  | .other => "?"

def StorageKind.name : StorageKind → String
  | .filesystem => "filesystem"
  | .s3 => "s3"
  | .azure => "azure"
  | .gcs => "gcs"
  | .webdav => "webdav"
  | .other => "unknown"

def storageNames : List (String × String) :=
  [("f", "filesystem"), ("s", "s3"), ("a", "azure"), ("g", "gcs"), ("w", "webdav"),
    ("?", "unknown")]

theorem storageNames_sound : CodeTable.Sound storageNames StorageKind.code StorageKind.name := by
  intro kind
  cases kind <;> decide

def storageKind (backend : String) : StorageKind :=
  let name := normalize backend
  if name = "filesystem" then .filesystem
  else if name = "s3" then .s3
  else if name = "azure" then .azure
  else if name = "gcs" then .gcs
  else if name = "webdav" then .webdav
  else .other

def storageCode (backend : String) : String := (storageKind backend).code

/-! ### Schedules and retention -/

inductive ScheduleKind where
  | manual | hourly | daily | weekly | monthly | custom
deriving DecidableEq

def ScheduleKind.code : ScheduleKind → String
  | .manual => "m"
  | .hourly => "h"
  | .daily => "d"
  | .weekly => "w"
  | .monthly => "o"
  | .custom => "x"

def ScheduleKind.name : ScheduleKind → String
  | .manual => "manual"
  | .hourly => "hourly"
  | .daily => "daily"
  | .weekly => "weekly"
  | .monthly => "monthly"
  | .custom => "custom"

def scheduleNames : List (String × String) :=
  [("m", "manual"), ("h", "hourly"), ("d", "daily"), ("w", "weekly"), ("o", "monthly"),
    ("x", "custom")]

theorem scheduleNames_sound :
    CodeTable.Sound scheduleNames ScheduleKind.code ScheduleKind.name := by
  intro kind
  cases kind <;> decide

/-- The fields between spaces and tabs. -/
def splitFields (text : String) : List String :=
  ((text.toList.splitOnP fun c => c = ' ' || c = '\t').filter (· ≠ [])).map String.ofList

def cronKind : List String → ScheduleKind
  | [minute, hour, dom, month, dow] =>
    if minute ≠ "*" ∧ hour = "*" ∧ dom = "*" ∧ month = "*" ∧ dow = "*" then .hourly
    else if dom = "*" ∧ month = "*" ∧ minute ≠ "*" ∧ hour ≠ "*" ∧ dow = "*" then .daily
    else if dom = "*" ∧ month = "*" ∧ minute ≠ "*" ∧ hour ≠ "*" ∧ dow ≠ "*" ∧ dow ≠ "0" then .weekly
    else if dom ≠ "*" ∧ month = "*" ∧ minute ≠ "*" ∧ hour ≠ "*" then .monthly
    else .custom
  | _ => .custom

def scheduleKind : Option Config.Schedule → ScheduleKind
  | none => .custom
  | some s =>
    if s.cron ≠ "" then cronKind (splitFields s.cron)
    else if 0 < s.interval then
      if s.interval ≤ 60 then .hourly
      else if s.interval ≤ 1440 then .daily
      else if s.interval ≤ 10080 then .weekly
      else .monthly
    else .custom

def scheduleCode (schedule : Option Config.Schedule) : String := (scheduleKind schedule).code

/-- How many backups of each tier are kept. -/
structure RetentionConfig where
  hourly : Option Int := none
  daily : Option Int := none
  weekly : Option Int := none
  monthly : Option Int := none
  yearly : Option Int := none
deriving DecidableEq

def tierSet (count : Option Int) : Bool := count.any (0 < ·)

def tierFlag (count : Option Int) : Char := if tierSet count then '1' else '0'

def retentionCode : Option RetentionConfig → String
  | none => "0"
  | some ret =>
    String.ofList [tierFlag ret.hourly, tierFlag ret.daily, tierFlag ret.weekly,
      tierFlag ret.monthly, tierFlag ret.yearly]

/-- The tiers whose digit is a one. -/
def decodeTiers (mask : String) : String :=
  if mask = "" ∨ mask = "0" then ""
  else ",".intercalate (((mask.toList.zip ["hourly", "daily", "weekly", "monthly", "yearly"]).filter
    (·.1 = '1')).map Prod.snd)

/-- The tiers that keep something. -/
def tierNames : Option RetentionConfig → String
  | none => ""
  | some ret =>
    ",".intercalate (([(ret.hourly, "hourly"), (ret.daily, "daily"), (ret.weekly, "weekly"),
      (ret.monthly, "monthly"), (ret.yearly, "yearly")].filter fun tier => tierSet tier.1).map Prod.snd)

theorem decodeTiers_retentionCode (ret : Option RetentionConfig) :
    decodeTiers (retentionCode ret) = tierNames ret ∧ Plain (retentionCode ret) := by
  cases ret with
  | none => decide
  | some ret =>
    have flags : ∀ h d w m y : Bool,
        decodeTiers (String.ofList ([h, d, w, m, y].map fun on => if on then '1' else '0')) =
          ",".intercalate (([(h, "hourly"), (d, "daily"), (w, "weekly"), (m, "monthly"),
            (y, "yearly")].filter Prod.fst).map Prod.snd) ∧
        Plain (String.ofList ([h, d, w, m, y].map fun on => if on then '1' else '0')) := by
      decide
    have shown := flags (tierSet ret.hourly) (tierSet ret.daily) (tierSet ret.weekly)
      (tierSet ret.monthly) (tierSet ret.yearly)
    refine ⟨shown.1.trans ?_, shown.2⟩
    unfold tierNames
    simp only [List.filter_cons, List.filter_nil]
    cases tierSet ret.hourly <;> cases tierSet ret.daily <;> cases tierSet ret.weekly <;>
      cases tierSet ret.monthly <;> cases tierSet ret.yearly <;> rfl

/-! ### Servers -/

def serverEngines : List (String × DbType) :=
  [("postgres", .postgres), ("mysql", .mysql), ("mariadb", .mariadb), ("mongo", .mongo),
    ("mssql", .mssql), ("redis", .redis), ("couch", .couch), ("influx", .influx),
    ("sqlite", .sqlite)]

def archCode (arch : String) : String :=
  if arch = "amd64" then "1" else if arch = "arm64" then "2" else if arch ≠ "" then arch else "0"

def serverToken (engine version arch : String) : String :=
  match serverEngines.lookup engine with
  | none => ""
  | some kind =>
    if version = "" then "" else kind.code ++ "/" ++ version ++ "/" ++ archCode arch

end DbBackup.Stats
