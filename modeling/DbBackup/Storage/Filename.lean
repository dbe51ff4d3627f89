import DbBackup.Lib.Backtrack
import DbBackup.Lib.Time

/-!
Owns the backup file names of `internal/database/common/filename.go`: the four
patterns `ParseBackupFilename` tries, in its order, and the collision renaming
of `UniqueBackupName`.

The patterns share everything from the strategy token on; `stampPart` is that
common tail. Capture groups that do not take part are the empty string, as
`FindStringSubmatch` reports them.
-/

set_option linter.all false

namespace DbBackup.Storage

open Lib.GoString Lib.Backtrack Lib.Time

inductive Strategy where
  | full
  | incremental
  | differential
deriving DecidableEq

/-- The words sidecars and the configuration use. -/
def Strategy.text : Strategy → String
  | .full => "full"
  | .incremental => "incremental"
  | .differential => "differential"

structure BackupInfo where
  type : String
  dbName : String
  host : String
  strategy : Strategy
  timestamp : Instant
  path : String
  compress : String
  encryption : String
deriving DecidableEq

structure Tokens where
  typeTok : String := ""
  dbTok : String := ""
  hostTok : String := ""
  stratTok : String := ""
  tsTok : String := ""
  compressTok : String := ""
  encTok : String := ""
deriving DecidableEq

/-! ### The patterns -/

/-- `(full|incr|diff)-(\d{8}-\d{6})(?:-\d+)?\.(?:sql|…)(\.(zst|…))?(\.(age|…))?`,
with the compression captured without its dot and the encryption with it. -/
def stampPart (tokens : Tokens) : Matcher Tokens := do
  let stratTok ← oneOf ["full", "incr", "diff"]
  literal "-"
  let date ← digits 8
  literal "-"
  let time ← digits 6
  let _ ← optional (do literal "-"; someDigits)
  literal "."
  let _ ← oneOf ["sql", "mongo", "redis", "influx", "couch"]
  let compressTok ← optional (do literal "."; oneOf ["zst", "gz", "bz2", "xz"])
  let encTok ← optional (do literal "."; oneOf ["age", "enc", "gpg"])
  pure { tokens with
    stratTok := stratTok
    tsTok := date ++ "-" ++ time
    compressTok := compressTok.getD ""
    encTok := (encTok.map ("." ++ ·)).getD "" }

def backupRe : Matcher Tokens := do
  let typeTok ← lazyAny
  literal "-"
  let dbTok ← lazyAny
  literal "-"
  let hostTok ← lazyAny
  literal "-"
  stampPart { typeTok := typeTok, dbTok := dbTok, hostTok := hostTok }

def addressTok : Matcher String := do
  let a ← someDigits
  literal "_"
  let b ← someDigits
  literal "_"
  let c ← someDigits
  literal "_"
  let d ← someDigits
  pure (a ++ "_" ++ b ++ "_" ++ c ++ "_" ++ d)

def backupReIP : Matcher Tokens := do
  let typeTok ← lazyAny
  literal "-"
  let dbTok ← lazyAny
  literal "-"
  let hostTok ← addressTok
  literal "-"
  stampPart { typeTok := typeTok, dbTok := dbTok, hostTok := hostTok }

def backupReNoHost : Matcher Tokens := do
  let typeTok ← lazyAny
  literal "-"
  let dbTok ← lazyAny
  literal "-"
  stampPart { typeTok := typeTok, dbTok := dbTok }

def backupReTypeOnly : Matcher Tokens := do
  let typeTok ← lazyAny
  literal "-"
  stampPart { typeTok := typeTok }

def filenameTokens (base : String) : Option Tokens :=
  (fullMatch backupReIP base).or <|
    (fullMatch backupRe base).or <|
      (fullMatch backupReNoHost base).or (fullMatch backupReTypeOnly base)

/-! ### Reading a name -/

inductive FilenameError where
  | cannotParse (base : String)
  | timestamp (token : String)
deriving DecidableEq

def FilenameError.text : FilenameError → String
  | .cannotParse base => "cannot parse backup filename: " ++ base
  | .timestamp token => "parse timestamp \"" ++ token ++ "\""

def strategyOfToken (token : String) : Strategy :=
  if token = "incr" then .incremental
  else if token = "diff" then .differential
  else .full

def extToCompress (ext : String) : String :=
  if ext = ".bz2" then "bzip2"
  else if ext = ".gz" then "gzip"
  else if ext = ".xz" then "xz"
  else if ext = ".zst" then "zstd"
  else ""

def extToEncryption (ext : String) : String :=
  if ext = ".age" then "age"
  else if ext = ".enc" then "openssl"
  else if ext = ".gpg" then "gpg"
  else ""

def parseBackupFilename (path : String) : Except FilenameError BackupInfo :=
  let base := filepathBase path
  match filenameTokens base with
  | none => .error (.cannotParse base)
  | some tokens =>
    match parseCompact tokens.tsTok with
    | none => .error (.timestamp tokens.tsTok)
    | some timestamp =>
      .ok {
        type := tokens.typeTok
        dbName := tokens.dbTok
        host := tokens.hostTok
        strategy := strategyOfToken tokens.stratTok
        timestamp := timestamp
        path := base
        compress :=
          if tokens.compressTok = "" then "" else extToCompress ("." ++ tokens.compressTok)
        encryption := extToEncryption tokens.encTok }

def isBackupFile (path : String) : Bool :=
  (parseBackupFilename path).isOk

def formatExtension (dbType : String) : String :=
  let lower := toLower dbType
  if lower = "couch" ∨ lower = "couchdb" then ".couch"
  else if lower = "influx" then ".influx"
  else if lower = "mongo" ∨ lower = "mongodb" then ".mongo"
  else if lower = "redis" then ".redis"
  else ".sql"

theorem formatExtension_mem (dbType : String) :
    formatExtension dbType ∈ [".couch", ".influx", ".mongo", ".redis", ".sql"] := by
  unfold formatExtension
  dsimp only
  split
  · simp
  · split
    · simp
    · split
      · simp
      · split <;> simp

/-! ### Collision renaming -/

/-- `name` with `-n` put before its first dot; unchanged when there is no dot
or the name starts with it. -/
def renamed (name : String) (n : Nat) : String :=
  match indexOf ['.'] name.toList with
  | some (idx + 1) =>
    String.ofList (name.toList.take (idx + 1)) ++ "-" ++ toString n ++
      String.ofList (name.toList.drop (idx + 1))
  | _ => name

def uniqueBackupName (name : String) (taken : String → Bool) : String :=
  if taken name then
    match (List.range' 2 998).find? fun n =>
        isBackupFile (renamed name n) && !taken (renamed name n) with
    | some n => renamed name n
    | none => name
  else name

private theorem indexOf_le_of_mem {needle : Char} :
    ∀ {text : List Char}, needle ∈ text →
      ∃ idx, indexOf [needle] text = some idx ∧ needle ∉ text.take idx
  | [], member => by simp at member
  | head :: tail, member => by
      by_cases same : head = needle
      · exact ⟨0, by simp [indexOf, same], by simp⟩
      · have inTail : needle ∈ tail := by
          rcases List.mem_cons.mp member with isHead | inTail
          · exact absurd isHead.symm same
          · exact inTail
        obtain ⟨idx, found, before⟩ := indexOf_le_of_mem inTail
        refine ⟨idx + 1, ?_, ?_⟩
        · simp [indexOf, found, Ne.symm same]
        · simp [List.take_succ_cons, Ne.symm same, before]

private theorem indexOf_eq_none_of_not_mem {needle : Char} :
    ∀ {text : List Char}, needle ∉ text → indexOf [needle] text = none
  | [], _ => by simp [indexOf]
  | head :: tail, absent => by
      rw [List.mem_cons, not_or] at absent
      simp [indexOf, absent.1, indexOf_eq_none_of_not_mem absent.2]

private theorem indexOf_append_of_not_mem {needle : Char} {rest : List Char} {idx : Nat} :
    ∀ {start : List Char}, needle ∉ start → indexOf [needle] rest = some idx →
      indexOf [needle] (start ++ rest) = some (start.length + idx)
  | [], _, found => by simpa using found
  | head :: tail, absent, found => by
      rw [List.mem_cons, not_or] at absent
      have inTail := indexOf_append_of_not_mem absent.2 found
      simp only [List.cons_append, indexOf, inTail]
      simp [absent.1]
      omega

theorem renamed_toList {name : String} {before after : List Char} (n : Nat)
    (shape : name.toList = before ++ '.' :: after) (noDot : '.' ∉ before) (notFirst : before ≠ []) :
    (renamed name n).toList = before ++ '-' :: ((toString n).toList ++ '.' :: after) := by
  have atDot : indexOf ['.'] ('.' :: after) = some 0 := by simp [indexOf]
  have found := indexOf_append_of_not_mem noDot atDot
  rw [← shape, Nat.add_zero] at found
  unfold renamed
  rw [found]
  cases length : before.length with
  | zero => exact absurd (List.length_eq_zero_iff.mp length) notFirst
  | succ idx =>
    have taken : name.toList.take (idx + 1) = before := by
      rw [← length, shape, List.take_left]
    have dropped : name.toList.drop (idx + 1) = '.' :: after := by
      rw [← length, shape, List.drop_left]
    simp [taken, dropped]

theorem renamed_of_dot {name : String} (n : Nat) (dotFirst : name.toList.head? = some '.') :
    renamed name n = name := by
  obtain ⟨rest, shape⟩ := List.head?_eq_some_iff.mp dotFirst
  have found : indexOf ['.'] name.toList = some 0 := by simp [shape, indexOf]
  unfold renamed
  rw [found]

/-- Renaming keeps every ending that starts with a dot. -/
theorem renamed_append (stem ending : String) (n : Nat)
    (dotted : ∃ word, ending.toList = '.' :: word) :
    ∃ newStem, renamed (stem ++ ending) n = newStem ++ ending := by
  obtain ⟨word, shape⟩ := dotted
  have hasDot : '.' ∈ (stem ++ ending).toList := by simp [shape]
  obtain ⟨idx, found, before⟩ := indexOf_le_of_mem hasDot
  have inStem : idx ≤ stem.toList.length := by
    by_contra beyond
    apply before
    rw [String.toList_append, shape, List.take_append]
    have positive : 0 < idx - stem.toList.length := by omega
    obtain ⟨k, isSucc⟩ := Nat.exists_eq_succ_of_ne_zero (Nat.ne_of_gt positive)
    simp [isSucc]
  unfold renamed
  rw [found]
  cases idx with
  | zero => exact ⟨stem, rfl⟩
  | succ idx =>
    refine ⟨String.ofList (stem.toList.take (idx + 1)) ++ "-" ++ toString n ++
      String.ofList (stem.toList.drop (idx + 1)), ?_⟩
    apply String.toList_injective
    simp [List.take_append_of_le_length inStem, List.drop_append_of_le_length inStem,
      List.append_assoc]

/-- Renaming keeps a beginning without dots. -/
theorem renamed_start (start rest : String) (n : Nat) (noDot : '.' ∉ start.toList) :
    ∃ newRest, renamed (start ++ rest) n = start ++ newRest := by
  unfold renamed
  by_cases hasDot : '.' ∈ rest.toList
  · obtain ⟨idx, found, before⟩ := indexOf_le_of_mem hasDot
    have inWhole : indexOf ['.'] (start ++ rest).toList = some (start.toList.length + idx) := by
      rw [String.toList_append]
      exact indexOf_append_of_not_mem noDot found
    rw [inWhole]
    split
    · next offset shape =>
        have isOffset : offset + 1 = start.toList.length + idx := (Option.some.inj shape).symm
        refine ⟨String.ofList (rest.toList.take idx) ++ "-" ++ toString n ++
          String.ofList (rest.toList.drop idx), ?_⟩
        apply String.toList_injective
        rw [isOffset]
        simp [List.take_append, List.drop_append, List.take_of_length_le,
          List.drop_eq_nil_of_le, List.append_assoc]
    · exact ⟨rest, rfl⟩
  · have noDotAtAll : indexOf ['.'] (start ++ rest).toList = none := by
      apply indexOf_eq_none_of_not_mem
      simp [noDot, hasDot]
    rw [noDotAtAll]
    exact ⟨rest, rfl⟩

theorem renamed_head? (name : String) (n : Nat) :
    (renamed name n).toList.head? = name.toList.head? := by
  unfold renamed
  split
  · next idx found =>
      cases chars : name.toList with
      | nil => simp [chars, indexOf] at found
      | cons first rest => simp
  · rfl

theorem uniqueBackupName_head? (name : String) (taken : String → Bool) :
    (uniqueBackupName name taken).toList.head? = name.toList.head? := by
  unfold uniqueBackupName
  split
  · split
    · exact renamed_head? name _
    · rfl
  · rfl

/-- Whatever name collision renaming settles on, it ends as the name it was
given. -/
theorem uniqueBackupName_append (stem ending : String) (taken : String → Bool)
    (dotted : ∃ word, ending.toList = '.' :: word) :
    ∃ newStem, uniqueBackupName (stem ++ ending) taken = newStem ++ ending := by
  unfold uniqueBackupName
  split
  · split
    · exact renamed_append stem ending _ dotted
    · exact ⟨stem, rfl⟩
  · exact ⟨stem, rfl⟩

end DbBackup.Storage
