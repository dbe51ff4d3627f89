import DbBackup.Storage.Filename

/-!
Owns the names `Run` gives to backups: the identity tokens, the prefix shared
by the backups of one (type, db, host), and the default template of
`internal/scheduler/runner/filename.go`.

The prefix and the default name are built from the same tokens by
`joinNonEmpty`, so a default name is its prefix followed by the strategy and
the time, unless all three tokens are empty.

Does not own configured templates (`backup.filename`).
-/

namespace DbBackup.Runner

open Lib.GoString Lib.Time Storage

/-- The (type, db, host) whose backups form one chain. -/
structure Identity where
  type : String
  dbName : String
  host : String
deriving DecidableEq

/-! ### Tokens -/

def hostSanitizer (host : String) : String :=
  String.ofList <| host.toList.map fun c =>
    if c ∈ ['.', '/', '\\', ':', '@', ' ', '-'] then '_' else c

def splitComma (text : String) : List String :=
  (List.splitOn ',' text.toList).map String.ofList

def hasAllToken (names : List String) : Bool :=
  names.any fun name => equalFold (trimSpace name) "ALL"

def isSQLiteType (dbType : String) : Bool :=
  equalFold dbType "sqlite" || equalFold dbType "sqlite3"

/-- The last element of a path without its extension. -/
def baseWithoutExt (path : String) : String :=
  trimSuffix (filepathBase path) (filepathExt (filepathBase path))

def dbToken (dbType dbName : String) : String :=
  if isSQLiteType dbType then baseWithoutExt dbName
  else if equalFold dbName "__globals__" then "globals"
  else if hasAllToken (splitComma dbName) then "all"
  else if dbName ≠ "" ∧ equalFold dbName "ALL" = false then
    replaceAll (replaceAll dbName "," "_") "-" "_"
  else dbName

def sqliteIdentity (dbName host : String) : String :=
  let effective := if dbName = "" then host else dbName
  if effective = "" then "" else baseWithoutExt effective

def defaultFilenameTokens (id : Identity) : String × String :=
  if isSQLiteType id.type then (sqliteIdentity id.dbName id.host, "")
  else (dbToken id.type id.dbName, hostSanitizer id.host)

/-! ### Names -/

def joinNonEmpty (sep : String) (parts : List String) : String :=
  sep.intercalate (parts.filter (· ≠ ""))

def backupPrefix (id : Identity) : String :=
  let (dbTok, hostTok) := defaultFilenameTokens id
  joinNonEmpty "-" [id.type, dbTok, hostTok] ++ "-"

def strategyToken : Strategy → String
  | .full => "full"
  | .incremental => "incr"
  | .differential => "diff"

theorem strategyToken_noDash (strat : Strategy) : '-' ∉ (strategyToken strat).toList := by
  cases strat with
  | full => decide
  | incremental => decide
  | differential => decide

/-- `expandFilename` with no template configured. -/
def expandFilename (id : Identity) (strat : Strategy) (now : Instant) : String :=
  let (dbTok, hostTok) := defaultFilenameTokens id
  joinNonEmpty "-" [id.type, dbTok, hostTok, strategyToken strat, formatCompact now]

/-! ### The shape of a default name -/

def NoTokens (id : Identity) : Prop :=
  id.type = "" ∧ (defaultFilenameTokens id).1 = "" ∧ (defaultFilenameTokens id).2 = ""

theorem strategyToken_ne_empty (strat : Strategy) : strategyToken strat ≠ "" := by
  cases strat <;> decide

theorem formatCompact_ne_empty (now : Instant) : formatCompact now ≠ "" := by
  intro empty
  have chars := congrArg String.toList empty
  simp [formatCompact] at chars

variable {id : Identity}

/-- A default name is the prefix of its identity, the strategy and the time. -/
theorem expandFilename_eq (tokens : ¬ NoTokens id) (strat : Strategy) (now : Instant) :
    expandFilename id strat now =
      backupPrefix id ++ (strategyToken strat ++ "-" ++ formatCompact now) := by
  unfold NoTokens at tokens
  unfold expandFilename backupPrefix joinNonEmpty
  have stratSet := strategyToken_ne_empty strat
  have timeSet := formatCompact_ne_empty now
  by_cases noType : id.type = "" <;> by_cases noDb : (defaultFilenameTokens id).1 = "" <;>
    by_cases noHost : (defaultFilenameTokens id).2 = "" <;>
    simp_all [String.intercalate_cons_cons, String.append_assoc]

theorem expandFilename_of_noTokens (tokens : NoTokens id) (strat : Strategy) (now : Instant) :
    expandFilename id strat now = strategyToken strat ++ "-" ++ formatCompact now := by
  obtain ⟨noType, noDb, noHost⟩ := tokens
  unfold expandFilename joinNonEmpty
  simp [noType, noDb, noHost, strategyToken_ne_empty, formatCompact_ne_empty,
    String.intercalate_cons_cons]

theorem backupPrefix_of_noTokens (tokens : NoTokens id) : backupPrefix id = "-" := by
  obtain ⟨noType, noDb, noHost⟩ := tokens
  simp [backupPrefix, joinNonEmpty, noType, noDb, noHost]

/-! ### Dashes in tokens -/

theorem dash_not_mem_hostSanitizer (host : String) : '-' ∉ (hostSanitizer host).toList := by
  unfold hostSanitizer
  rw [String.toList_ofList, List.mem_map]
  rintro ⟨c, _, isDash⟩
  split at isDash
  · exact absurd isDash (by decide)
  · next kept =>
      rw [isDash] at kept
      exact kept (by decide)

private theorem dash_not_mem_replaceChars (text : List Char) :
    '-' ∉ replaceChars ['-'] ['_'] 0 text := by
  induction text with
  | nil => simp [replaceChars]
  | cons head rest ih =>
    by_cases isDash : head = '-'
    · simp [replaceChars, isDash, ih]
    · simp [replaceChars, Ne.symm isDash, ih]

theorem dash_not_mem_of_equalFold_all {text : String} (isAll : equalFold text "ALL" = true) :
    '-' ∉ text.toList := by
  intro member
  unfold equalFold at isAll
  rw [decide_eq_true_eq] at isAll
  have folded : foldChar '-' ∈ text.toList.map foldChar := List.mem_map_of_mem member
  rw [isAll] at folded
  exact absurd folded (by decide)

/-- Only the file of an SQLite job can bring a dash into the database token. -/
theorem dash_not_mem_dbToken {dbType dbName : String} (notSQLite : isSQLiteType dbType = false) :
    '-' ∉ (dbToken dbType dbName).toList := by
  unfold dbToken
  rw [if_neg (by simp [notSQLite])]
  split
  · decide
  · split
    · decide
    · split
      · unfold replaceAll
        rw [String.toList_ofList]
        exact dash_not_mem_replaceChars _
      · next kept =>
          by_cases empty : dbName = ""
          · simp [empty]
          · have isAll : equalFold dbName "ALL" = true := by simpa [empty] using kept
            exact dash_not_mem_of_equalFold_all isAll

theorem dash_not_mem_tokens (hasHost : (defaultFilenameTokens id).2 ≠ "") :
    '-' ∉ (defaultFilenameTokens id).1.toList ∧ '-' ∉ (defaultFilenameTokens id).2.toList := by
  unfold defaultFilenameTokens at *
  by_cases isSQLite : isSQLiteType id.type = true
  · simp [isSQLite] at hasHost
  · rw [if_neg isSQLite]
    exact ⟨dash_not_mem_dbToken (by simpa using isSQLite), dash_not_mem_hostSanitizer _⟩

end DbBackup.Runner
