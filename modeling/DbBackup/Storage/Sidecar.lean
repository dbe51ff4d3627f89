import DbBackup.Storage.Filename

/-!
Owns the storage a backup job sees: the listed entries, the sidecar
`ReadSidecar` finds for a backup, and what `internal/retention/sidecar.go`
reads from a file name alone.

A sidecar keeps the fields some modelled function reads; `ReadSidecar` fails
both when the `.json` object is missing and when it does not parse, and the
callers never tell the two apart, so a failed read is `none`.
-/

namespace DbBackup.Storage

open Lib.GoString Lib.Time

structure EncryptionMeta where
  type : String
deriving DecidableEq

structure Sidecar where
  strategy : String := ""
  base : String := ""
  position : String := ""
  type : String := ""
  db : String := ""
  host : String := ""
  timestamp : String := ""
  encryption : Option EncryptionMeta := none
deriving DecidableEq

structure Entry where
  path : String
  size : Int := 0
  modTime : Int := 0
deriving DecidableEq

/-- A reachable storage. Paths are object keys, so no path is listed twice. -/
structure Store where
  entries : List Entry
  readSidecar : String → Option Sidecar
  distinct : (entries.map Entry.path).Nodup

def sidecarName (filename : String) : String := filename ++ ".json"

/-! ### File names -/

/-- The compression and `.gpg` endings `ParseTimestamp` and
`StrategyFromFilename` cut off; `.age` and `.enc` are not among them. -/
def stripPackaging (filename : String) : String :=
  [".gpg", ".zst", ".gz", ".bz2", ".xz"].foldl trimSuffix filename

def stripFormatExt (filename : String) : String :=
  [".sql", ".mongo", ".redis", ".influx", ".couch"].foldl trimSuffix filename

def dashParts (filename : String) : List String :=
  (List.splitOn '-' (stripFormatExt (stripPackaging filename)).toList).map String.ofList

def parseTimestamp (filename : String) : Option Instant :=
  match (dashParts filename).reverse with
  | time :: date :: _ => parseCompact (date ++ "-" ++ time)
  | _ => none

def strategyFromFilename (filename : String) : Strategy :=
  match (dashParts filename).reverse with
  | _ :: _ :: token :: _ :: _ => strategyOfToken token
  | _ => .full

def strategyMatches (filename : String) (strategy : Strategy) : Bool :=
  strategyFromFilename filename = strategy

/-! ### Cutting on characters -/

/-- `strings.TrimSuffix` on characters. -/
def cutEnding (text ending : List Char) : List Char :=
  if ending.isSuffixOf text then text.take (text.length - ending.length) else text

theorem foldl_trimSuffix_toList (endings : List String) (text : String) :
    (endings.foldl trimSuffix text).toList =
      (endings.map String.toList).foldl cutEnding text.toList := by
  induction endings generalizing text with
  | nil => rfl
  | cons ending endings ih =>
    have cut : (trimSuffix text ending).toList = cutEnding text.toList ending.toList := by
      unfold trimSuffix cutEnding hasSuffix
      split
      · rw [String.toList_ofList]
      · rfl
    rw [List.foldl_cons, ih, List.map_cons, List.foldl_cons, cut]

/-- The two cuts try ten endings, one after the other. -/
theorem dashParts_chars (filename : String) :
    dashParts filename = (List.splitOn '-'
      (([".gpg", ".zst", ".gz", ".bz2", ".xz", ".sql", ".mongo", ".redis", ".influx",
        ".couch"].map String.toList).foldl cutEnding filename.toList)).map String.ofList := by
  unfold dashParts stripFormatExt stripPackaging
  rw [← List.foldl_append, foldl_trimSuffix_toList]
  rfl

theorem parseTimestamp_of_parts {filename time date : String} {before : List String}
    (parts : (dashParts filename).reverse = time :: date :: before) :
    parseTimestamp filename = parseCompact (date ++ "-" ++ time) := by
  unfold parseTimestamp
  rw [parts]

end DbBackup.Storage
