import DbBackup.Stats.Encoding
import Mathlib.Data.String.Basic

/-!
Owns the payload of a usage report: building it from the configuration and the
outcomes of the jobs (`internal/stats/report.go`), and reading it back
(`internal/stats/decode.go`).

The version, the architecture and the other texts of a report stand in the
payload as they are; nothing is escaped.

Does not own: the time of the report, whose RFC 3339 text is given, and the
conversion of the uptime to hours.
-/

set_option linter.all false

namespace DbBackup.Stats

open DbBackup.Config (splitChar fields cut)
open Lib.GoString Lib.Scan

/-! ### Numbers -/

/-- The loop that fills the buffer of `itoa` from its end; `space` is what is
left of the buffer. -/
def digitLoop : Nat → Nat → List Char → List Char
  | 0, _, buf => buf
  | space + 1, n, buf =>
    if 0 < n then digitLoop space (n / 10) (Nat.digitChar (n % 10) :: buf) else buf

/-- The smallest number is its own negative, and the loop does not run. -/
def itoa (n : Int64) : String :=
  if n = 0 then "0"
  else
    let magnitude := if n < 0 then -n else n
    let digits := digitLoop 20 magnitude.toInt.toNat []
    String.ofList (if n < 0 then '-' :: digits else digits)

def itoa64 (n : Int64) : String := itoa n

def atoiCode (text : String) : Int := (atoi text).1

def atoiCode64 (text : String) : Int := (atoi text).1

/-! ### What a report is made of -/

/-- A server whose token the tracker keeps. -/
structure Server where
  engine : String
  version : String
  arch : String
  kept : serverToken engine version arch ≠ ""

def Server.token (server : Server) : String := serverToken server.engine server.version server.arch

structure JobOutcome where
  type : String
  success : Int64 := 0
  failed : Int64 := 0
  /-- Nanoseconds. -/
  duration : Int64 := 0
  pruned : Int64 := 0
  archived : Int64 := 0
  kb : Int64 := 0
  rawKB : Int64 := 0
  servers : List Server := []

/-- The servers of both lists, each token once, in the order of the tokens. -/
def unionServers (first second : List Server) : List Server :=
  ((first ++ second).foldl (fun out server =>
    if out.any fun known => known.token = server.token then out else out ++ [server]) []).insertionSort
    fun one other => one.token ≤ other.token

def JobOutcome.merge (known next : JobOutcome) : JobOutcome :=
  { known with
    success := known.success + next.success
    failed := known.failed + next.failed
    duration := known.duration + next.duration
    pruned := known.pruned + next.pruned
    archived := known.archived + next.archived
    kb := known.kb + next.kb
    rawKB := known.rawKB + next.rawKB
    servers := unionServers known.servers next.servers }

/-- What `Build` has collected for a type of database. -/
def outcomeFor (outcomes : List JobOutcome) (key : String) : Option JobOutcome :=
  outcomes.foldl (fun found outcome =>
    if outcome.type = "" ∨ normalize outcome.type ≠ key then found
    else match found with
      | none => some outcome
      | some known => some (known.merge outcome)) none

structure CompressionConfig where
  type : String
  level : Int64

structure BackupConfig where
  strategy : String := ""
  type : String := ""

def BackupConfig.effectiveStrategy (backup : BackupConfig) : String :=
  if backup.strategy ≠ "" then backup.strategy
  else if backup.type ≠ "" then backup.type
  else "full"

/-- What a report reads of a job. -/
structure JobConfig where
  type : String
  compression : Option CompressionConfig := none
  backup : Option BackupConfig := none
  encryptionType : String := ""
  encryptionIdentity : String := ""
  encryptionIdentities : List String := []
  storageBackend : Option String := none
  schedule : Option Config.Schedule := none
  maintenance : Bool := false
  archive : Bool := false
  retention : Option RetentionConfig := none
  checksum : String := ""

structure ReportConfig where
  jobs : List JobConfig
  /-- A slice's length is an `int`. -/
  inRange : jobs.length < 2 ^ 63

structure ReportBuilder where
  version : String
  imageVersion : String := ""
  licenseID : String := ""
  channel : String := ""
  gitCommit : String := ""
  container : Bool := false
  systemd : Bool := false
  logLevel : String := ""
  logFormat : String := ""
  logType : String := ""
  goos : String := "linux"
  goarch : String := "amd64"
  instanceID : String
  prevVers : String := ""
  uptimeHours : Int64 := 0
  reported : String
  outcomes : List JobOutcome := []
  ops : String := ""

/-! ### Building -/

def flag (on : Bool) : String := if on then "1" else "0"

def JobConfig.kindStrategy (job : JobConfig) : Strategy :=
  match job.backup with
  | some backup => Stats.strategy backup.effectiveStrategy
  | none => .full

def JobConfig.kindCompression (job : JobConfig) : Pipeline.Compression :=
  match job.compression with
  | some compression => Pipeline.Compression.parse compression.type
  | none => .none

def JobConfig.kindEncryption (job : JobConfig) : Pipeline.Encryption :=
  if job.encryptionType ≠ "" then Pipeline.Encryption.parse job.encryptionType else .none

def JobConfig.kindMode (job : JobConfig) : EncryptionMode :=
  if job.encryptionType ≠ "" then
    Stats.encryptionMode job.encryptionType job.encryptionIdentity job.encryptionIdentities
  else .none

def JobConfig.kindStorage (job : JobConfig) : StorageKind :=
  match job.storageBackend with
  | some backend => Stats.storageKind backend
  | none => .other

def JobConfig.level (job : JobConfig) : Int64 :=
  match job.compression with
  | some compression => compression.level
  | none => 0

/-- The outcome of the job's type of database, all zero where there is none. -/
def ReportBuilder.outcome (b : ReportBuilder) (job : JobConfig) : JobOutcome :=
  (outcomeFor b.outcomes (normalize job.type)).getD { type := "" }

def milliseconds (duration : Int64) : Int64 := duration / 1000000

def serverField (servers : List Server) : String := ",".intercalate (servers.map Server.token)

/-- The fields of `encodeJob`. -/
def ReportBuilder.jobFields (b : ReportBuilder) (job : JobConfig) : List String :=
  let o := b.outcome job
  [dbTypeCode job.type, job.kindStrategy.code, compressionKindCode job.kindCompression,
    encryptionKindCode job.kindEncryption, job.kindMode.code, job.kindStorage.code,
    scheduleCode job.schedule, flag job.maintenance, flag job.archive, itoa o.success,
    itoa o.failed, retentionCode job.retention, itoa64 (milliseconds o.duration), itoa o.pruned,
    itoa o.archived, itoa64 o.kb, itoa64 o.rawKB, checksumCode job.checksum, itoa job.level,
    serverField o.servers]

def ReportBuilder.encodeJob (b : ReportBuilder) (job : JobConfig) : String :=
  ":".intercalate (b.jobFields job)

def ReportBuilder.runtimeCode (b : ReportBuilder) : String :=
  (if b.goos = "windows" then "2" else if b.goos = "darwin" then "3"
    else if b.goos = "freebsd" then "4" else if b.goos = "openbsd" then "5" else "1") ++
  (if b.goarch = "arm64" then "2" else if b.goarch = "arm" then "3" else "1") ++
  flag b.container ++ flag b.systemd

def ReportBuilder.logCode (b : ReportBuilder) : String :=
  let level := normalize b.logLevel
  let type := normalize b.logType
  (if level = "debug" ∨ level = "trace" then "1" else if level = "warn" ∨ level = "warning" then "3"
    else if level = "error" then "4" else "2") ++
  (if normalize b.logFormat = "json" then "2" else "1") ++
  (if type = "file" then "2" else if type = "both" then "3" else "1")

def ReportBuilder.imageVersionCode (b : ReportBuilder) : String :=
  if b.imageVersion ≠ "" then b.imageVersion else "0"

def optional (key text : String) : List String := if text ≠ "" then [key ++ text] else []

def ReportBuilder.jobText (b : ReportBuilder) (cfg : ReportConfig) : String :=
  "|".intercalate (cfg.jobs.map b.encodeJob)

/-- The tokens of a report up to the number of jobs. -/
def ReportBuilder.firstTokens (b : ReportBuilder) : List String :=
  ["sv=" ++ itoa 5, "i=" ++ b.instanceID, "t=" ++ "322", "v=" ++ b.version, "d=" ++ b.reported] ++
    optional "p=" b.prevVers ++ optional "e=" b.licenseID ++ optional "h=" b.channel ++
    optional "g=" b.gitCommit ++ optional "o=" b.ops ++
    ["r=" ++ b.runtimeCode, "u=" ++ itoa b.uptimeHours]

def ReportBuilder.tokens (b : ReportBuilder) (cfg : ReportConfig) : List String :=
  b.firstTokens ++ ["n=" ++ itoa (Int64.ofNat cfg.jobs.length), "l=" ++ b.logCode] ++
    (if b.container then ["m=" ++ b.imageVersionCode] else []) ++
    (if cfg.jobs ≠ [] then ["j=" ++ b.jobText cfg] else [])

def ReportBuilder.build (b : ReportBuilder) (cfg : ReportConfig) : String :=
  " ".intercalate (b.tokens cfg)

/-! ### Reading -/

structure DecodedRuntime where
  os : String := ""
  arch : String := ""
  container : Bool := false
  systemd : Bool := false
deriving DecidableEq

structure DecodedLog where
  level : String := ""
  format : String := ""
  destination : String := ""
deriving DecidableEq

structure Job where
  database : String
  strategy : String
  compression : String
  encryption : String
  encryptionMode : String
  storage : String
  schedule : String
  maintenance : Bool
  archive : Bool
  successes : Int
  failures : Int
  retentionTiers : String := ""
  durationMs : Int := 0
  pruned : Int := 0
  archived : Int := 0
  kb : Int := 0
  rawKB : Int := 0
  checksum : String := ""
  compressionLevel : Int := 0
  servers : List String := []
deriving DecidableEq

structure Decoded where
  schemaVersion : Int := 0
  instanceID : String := ""
  tool : String := ""
  version : String := ""
  reportedAt : String := ""
  previousVersion : String := ""
  runtime : DecodedRuntime := {}
  uptimeHours : Int := 0
  jobCount : Int := 0
  log : DecodedLog := {}
  imageVersion : String := ""
  jobs : List Job := []
deriving DecidableEq

def decodeBool (code : String) : Bool := code = "1"

/-- The text at a position of a code, `other` where the table has none. -/
def codeAt (code : String) (position : Nat) (table : List (Char × String)) : String :=
  (code.toList[position]?.bind fun c => table.lookup c).getD ""

def decodeRuntime (code : String) : DecodedRuntime where
  os := codeAt code 0
    [('1', "linux"), ('2', "windows"), ('3', "darwin"), ('4', "freebsd"), ('5', "openbsd")]
  arch := codeAt code 1 [('1', "amd64"), ('2', "arm64"), ('3', "arm")]
  container := code.toList[2]? = some '1'
  systemd := code.toList[3]? = some '1'

def decodeLog (code : String) : DecodedLog where
  level := codeAt code 0 [('1', "debug"), ('2', "info"), ('3', "warn"), ('4', "error")]
  format := codeAt code 1 [('1', "text"), ('2', "json")]
  destination := codeAt code 2 [('1', "console"), ('2', "file"), ('3', "both")]

def toolName (code : String) : String :=
  if code = "322" then "db-backup" else "unknown tool (" ++ code ++ ")"

def decodeArch (arch : String) : String :=
  if arch = "1" then "amd64" else if arch = "2" then "arm64"
  else if arch = "0" ∨ arch = "" then "" else arch

def decodeServerToken (db version arch : String) : String :=
  let name := decodeName db dbTypeNames
  if decodeArch arch = "" then name ++ " " ++ version
  else name ++ " " ++ version ++ " " ++ decodeArch arch

/-- One token of the field; what has not three parts is passed over. -/
def decodeServer (token : String) : Option String :=
  match splitChar '/' (trimSpace token) with
  | [db, version, arch] => some (decodeServerToken db version arch)
  | _ => none

def decodeServers (field : String) : List String :=
  (splitChar ',' field).filterMap decodeServer

/-- A field that older payloads do not have. -/
def laterField {Value : Type} (f : List String) (position : Nat) (read : String → Value)
    (absent : Value) : Value :=
  (f[position]?.map read).getD absent

def decodeJob (entry : String) : Option Job :=
  let f := splitChar ':' entry
  if f.length < 11 then none
  else some {
    database := decodeName (f.getD 0 "") dbTypeNames
    strategy := decodeName (f.getD 1 "") strategyNames
    compression := decodeName (f.getD 2 "") compressionNames
    encryption := decodeName (f.getD 3 "") encryptionNames
    encryptionMode := decodeName (f.getD 4 "") encryptionModeNames
    storage := decodeName (f.getD 5 "") storageNames
    schedule := decodeName (f.getD 6 "") scheduleNames
    maintenance := decodeBool (f.getD 7 "")
    archive := decodeBool (f.getD 8 "")
    successes := atoiCode (f.getD 9 "")
    failures := atoiCode (f.getD 10 "")
    retentionTiers := laterField f 11 decodeTiers ""
    durationMs := laterField f 12 atoiCode64 0
    pruned := laterField f 13 atoiCode 0
    archived := laterField f 14 atoiCode 0
    kb := laterField f 15 atoiCode64 0
    rawKB := laterField f 16 atoiCode64 0
    checksum := laterField f 17 (decodeName · checksumNames) ""
    compressionLevel := laterField f 18 atoiCode 0
    servers := laterField f 19 decodeServers [] }

def decodeJobs (val : String) : List Job := (splitChar '|' val).filterMap decodeJob

structure Reading where
  decoded : Decoded := {}
  seenSchema : Bool := false
  seenTool : Bool := false

def Reading.field (reading : Reading) (key val : String) : Reading :=
  let d := reading.decoded
  if key = "sv" then
    { reading with decoded := { d with schemaVersion := atoiCode val }, seenSchema := true }
  else if key = "i" then { reading with decoded := { d with instanceID := val } }
  else if key = "t" then
    { reading with decoded := { d with tool := toolName val }, seenTool := true }
  else if key = "v" then { reading with decoded := { d with version := val } }
  else if key = "d" then { reading with decoded := { d with reportedAt := val } }
  else if key = "p" then { reading with decoded := { d with previousVersion := val } }
  else if key = "r" then { reading with decoded := { d with runtime := decodeRuntime val } }
  else if key = "u" then { reading with decoded := { d with uptimeHours := atoiCode val } }
  else if key = "n" then { reading with decoded := { d with jobCount := atoiCode val } }
  else if key = "l" then { reading with decoded := { d with log := decodeLog val } }
  else if key = "m" then { reading with decoded := { d with imageVersion := val } }
  else if key = "j" then { reading with decoded := { d with jobs := decodeJobs val } }
  else reading

def Reading.token (reading : Reading) (token : String) : Reading :=
  match cut '=' token with
  | (_, none) => reading
  | (key, some val) => reading.field key val

inductive DecodeError where
  | emptyPayload
  | notAPayload
deriving DecidableEq

def decodePayload (payload : String) : Except DecodeError Decoded :=
  let tokens := fields payload
  if tokens = [] then .error .emptyPayload
  else
    let reading := tokens.foldl Reading.token {}
    if reading.seenSchema = false ∨ reading.seenTool = false then .error .notAPayload
    else .ok reading.decoded

end DbBackup.Stats
