import DbBackup.Retention.Prune

/-!
Owns archiving: one file tree with the hot folder and the archive folder in it,
`moveFile` and `runArchive` of the supported edition, and the archive location
`archiveStorageCfg` derives.

Contract: a filesystem or S3 storage is a folder of the tree. Its listing is
recursive, so a storage nested in another one is listed by both. An upload
replaces the file of that name and stamps it with the time of the call.

Every storage call may fail, in any pattern: calls are numbered along a run and
`StorageCalls.fails` says which of them return an error. A failed call leaves
the tree as it was.

Does not own which job archives when; `applyArchive` runs `runArchive` once
after each backup.
-/

set_option linter.all false

namespace DbBackup.Retention

open Lib Lib.GoString Lib.Sorting Lib.Time Storage

/-! ### The file tree -/

structure File where
  path : String
  content : String
  modTime : Int
deriving DecidableEq

structure FileTree where
  files : List File
  distinct : (files.map File.path).Nodup

namespace FileTree

def find? (tree : FileTree) (path : String) : Option File :=
  tree.files.find? fun f => f.path = path

def erase (tree : FileTree) (path : String) : FileTree where
  files := tree.files.filter fun f => f.path ≠ path
  distinct := tree.distinct.sublist (List.filter_sublist.map File.path)

def put (tree : FileTree) (file : File) : FileTree where
  files := file :: (tree.erase file.path).files
  distinct := by
    rw [List.map_cons, List.nodup_cons]
    refine ⟨?_, (tree.erase file.path).distinct⟩
    intro listed
    obtain ⟨other, member, samePath⟩ := List.mem_map.mp listed
    have differs := (List.mem_filter.mp member).2
    simp [samePath] at differs

variable {tree : FileTree}

theorem find?_eq_some_iff {path : String} {file : File} :
    tree.find? path = some file ↔ file ∈ tree.files ∧ file.path = path := by
  unfold find?
  constructor
  · intro found
    exact ⟨List.mem_of_find?_eq_some found, by simpa using List.find?_some found⟩
  · intro ⟨member, samePath⟩
    cases found : tree.files.find? fun f => f.path = path with
    | none =>
      have missing := List.find?_eq_none.mp found file member
      simp [samePath] at missing
    | some other =>
      have otherPath : other.path = path := by simpa using List.find?_some found
      have same := List.inj_on_of_nodup_map tree.distinct
        (List.mem_of_find?_eq_some found) member (otherPath.trans samePath.symm)
      rw [same]

theorem mem_erase {path : String} {file : File} :
    file ∈ (tree.erase path).files ↔ file ∈ tree.files ∧ file.path ≠ path := by
  simp [erase]

theorem mem_put {file other : File} : other ∈ (tree.put file).files ↔
      other = file ∨ other ∈ tree.files ∧ other.path ≠ file.path := by
  simp [put, mem_erase]

end FileTree

/-! ### Storage calls -/

/-- Where a storage at `base` keeps the object it calls `path`. -/
def objectPath (base path : String) : String := base ++ "/" ++ trimPrefix path "/"

/-- The listed name of an object: its path below `base`. -/
def relativePath (base path : String) : Option String :=
  if hasPrefix path (base ++ "/") then
    let relative := trimPrefix path (base ++ "/")
    if relative = "" then none else some relative
  else none

/-- `Storage.List` with the empty prefix. -/
def listFolder (tree : FileTree) (base : String) : List Entry :=
  tree.files.filterMap fun f => (relativePath base f.path).map fun relative =>
    { path := relative, size := f.content.utf8ByteSize, modTime := f.modTime }

structure StorageCalls where
  fails : Nat → Bool
  clock : Nat → Int

/-- The tree and the number of storage calls made so far. -/
structure World where
  tree : FileTree
  calls : Nat

namespace World

def called (world : World) : World := { world with calls := world.calls + 1 }

def list (io : StorageCalls) (base : String) (world : World) : World × Option (List Entry) :=
  (world.called, if io.fails world.calls then none else some (listFolder world.tree base))

def download (io : StorageCalls) (base path : String) (world : World) : World × Option String :=
  (world.called, if io.fails world.calls then none
    else (world.tree.find? (objectPath base path)).map File.content)

/-- The new tree, and whether the upload succeeded. -/
def upload (io : StorageCalls) (base path content : String) (world : World) : World × Bool :=
  if io.fails world.calls then (world.called, false)
  else
    let file := { path := objectPath base path, content, modTime := io.clock world.calls }
    ({ world.called with tree := world.tree.put file }, true)

def delete (io : StorageCalls) (base path : String) (world : World) : World × Bool :=
  if io.fails world.calls then (world.called, false)
  else ({ world.called with tree := world.tree.erase (objectPath base path) }, true)

end World

/-! ### Moving files -/

inductive MoveError where
  | upload
  | delete
deriving DecidableEq

def MoveError.text : MoveError → String
  | .upload => "upload to archive"
  | .delete => "delete from hot"

/-- A file that cannot be read counts as moved. -/
def moveFile (io : StorageCalls) (src dst path : String) (world : World) :
    World × Option MoveError :=
  if path = "" then (world, none)
  else
    match world.download io src path with
    | (world, none) => (world, none)
    | (world, some content) =>
      match world.upload io dst path content with
      | (world, false) => (world, some .upload)
      | (world, true) =>
        match world.delete io src path with
        | (world, false) => (world, some .delete)
        | (world, true) => (world, none)

inductive ArchiveError where
  | list
  | move (path : String) (error : MoveError)
deriving DecidableEq

def ArchiveError.text : ArchiveError → String
  | .list => "list"
  | .move path error => "move " ++ path ++ ": " ++ error.text

structure ArchiveConfig where
  last : Int
  within : Int := 0
  src : String
  dst : String
deriving DecidableEq

structure ArchiveResult where
  moved : Nat
  candidates : List String
  error : Option ArchiveError
deriving DecidableEq

/-- The files kept beside a backup. Their moves may fail unnoticed. -/
def companions (path : String) : List String :=
  [sidecarName path, path ++ ".md5", path ++ ".sha1"]

def moveCompanions (io : StorageCalls) (src dst path : String) (world : World) : World :=
  (companions path).foldl (fun world companion => (moveFile io src dst companion world).1) world

/-- The loop over `toArchive`. -/
def archiveLoop (io : StorageCalls) (src dst : String) :
    List Entry → Nat → List String → World → World × ArchiveResult
  | [], moved, candidates, world => (world, ⟨moved, candidates, none⟩)
  | b :: rest, moved, candidates, world =>
    match moveFile io src dst b.path world with
    | (world, some error) =>
      (world, ⟨moved, candidates ++ [b.path], some (.move b.path error)⟩)
    | (world, none) =>
      archiveLoop io src dst rest (moved + 1) (candidates ++ [b.path])
        (moveCompanions io src dst b.path world)

def archivable (path : String) : Bool := !hasSuffix path ".json" && isBackupFile path

def newerFile (a b : Entry) : Bool := b.modTime < a.modTime

/-- How many of the sorted backups stay. -/
def keepCount (cfg : ArchiveConfig) (now : Int) (sorted : List Entry) : Nat :=
  if 0 < cfg.within then (sorted.takeWhile fun b => now - cfg.within ≤ b.modTime).length
  else if 0 < cfg.last then cfg.last.toNat
  else 0

def runArchive (sort : SliceSort newerFile) (io : StorageCalls) (cfg : ArchiveConfig) (now : Int)
    (world : World) : World × ArchiveResult :=
  match world.list io cfg.src with
  | (world, none) => (world, ⟨0, [], some .list⟩)
  | (world, some entries) =>
    let backups := entries.filter fun e => archivable e.path
    if backups.length = 0 then (world, ⟨0, [], none⟩)
    else
      let sorted := sort.run backups
      let keep := keepCount cfg now sorted
      if sorted.length ≤ keep then (world, ⟨0, [], none⟩)
      else archiveLoop io cfg.src cfg.dst (sorted.drop keep) 0 [] world

/-! ### The nested archive -/

structure ArchiveJob where
  name : String
  storagePath : String
  archivePath : String := ""
deriving DecidableEq

/-- The path of `archiveStorageCfg`; `root` is `config.StoragePath()`. -/
def archiveStorageCfg (root : String) (job : ArchiveJob) : String :=
  if job.archivePath = "" then
    (if job.storagePath = "" then root ++ "/" ++ job.name else job.storagePath) ++ "/archive"
  else job.archivePath

def archiveConfig (root : String) (job : ArchiveJob) (last : Int) : ArchiveConfig where
  last := last
  src := job.storagePath
  dst := archiveStorageCfg root job

theorem relativePath_eq_some_iff {base path relative : String} :
    relativePath base path = some relative ↔
      path = base ++ "/" ++ relative ∧ relative ≠ "" := by
  unfold relativePath
  constructor
  · intro listed
    split at listed
    · rename_i below
      obtain ⟨rest, rfl⟩ := (hasPrefix_iff _ _).mp below
      rw [trimPrefix_append] at listed
      simp only at listed
      split at listed
      · cases listed
      · rename_i notEmpty
        rw [← Option.some.inj listed]
        exact ⟨rfl, notEmpty⟩
    · cases listed
  · intro ⟨shape, notEmpty⟩
    rw [shape, hasPrefix_append, trimPrefix_append, if_pos rfl, if_neg notEmpty]

theorem append_left_inj {start first second : String} (same : start ++ first = start ++ second) :
    first = second := by
  apply String.toList_injective
  have sameChars := congrArg String.toList same
  simpa using sameChars

variable {tree : FileTree} {base : String} {entry : Entry}

theorem mem_listFolder :
    entry ∈ listFolder tree base ↔ ∃ f ∈ tree.files, f.path = base ++ "/" ++ entry.path ∧
      entry.path ≠ "" ∧ entry.size = f.content.utf8ByteSize ∧ entry.modTime = f.modTime := by
  unfold listFolder
  rw [List.mem_filterMap]
  constructor
  · intro ⟨f, member, listed⟩
    obtain ⟨relative, isRelative, rfl⟩ := Option.map_eq_some_iff.mp listed
    obtain ⟨shape, notEmpty⟩ := relativePath_eq_some_iff.mp isRelative
    exact ⟨f, member, shape, notEmpty, rfl, rfl⟩
  · intro ⟨f, member, shape, notEmpty, size, modTime⟩
    refine ⟨f, member, Option.map_eq_some_iff.mpr ⟨entry.path, ?_, ?_⟩⟩
    · exact relativePath_eq_some_iff.mpr ⟨shape, notEmpty⟩
    · rw [← size, ← modTime]

theorem listFolder_distinct (tree : FileTree) (base : String) :
    ((listFolder tree base).map Entry.path).Nodup := by
  have inFiles : tree.files.Pairwise fun f other => f.path ≠ other.path :=
    List.pairwise_map.mp tree.distinct
  unfold listFolder
  rw [List.nodup_iff_pairwise_ne, List.pairwise_map, List.pairwise_filterMap]
  refine inFiles.imp ?_
  intro f other differs entry listed otherEntry otherListed samePath
  obtain ⟨relative, isRelative, rfl⟩ := Option.map_eq_some_iff.mp listed
  obtain ⟨otherRelative, isOther, rfl⟩ := Option.map_eq_some_iff.mp otherListed
  have shape := (relativePath_eq_some_iff.mp isRelative).1
  have otherShape := (relativePath_eq_some_iff.mp isOther).1
  exact differs (by rw [shape, otherShape]; exact congrArg (base ++ "/" ++ ·) samePath)

/-- What a prune of the storage at `base` sees; `unmarshal` reads a sidecar. -/
def folderStore (unmarshal : String → Option Sidecar) (tree : FileTree) (base : String) : Store where
  entries := listFolder tree base
  readSidecar path := (tree.find? (objectPath base (sidecarName path))).bind fun f =>
    unmarshal f.content
  distinct := listFolder_distinct tree base

def inArchive (path : String) : Bool := hasPrefix path "archive/"

/-- Every backup `runArchive` finds in the storage, nested ones included. -/
def backupsIn (tree : FileTree) (base : String) : List Entry :=
  (listFolder tree base).filter fun e => archivable e.path

def hotBackups (tree : FileTree) (base : String) : List Entry :=
  (backupsIn tree base).filter fun e => !inArchive e.path

/-- `chosen` are `n` backups of `all`, or all of them, and no other is newer
than one of them. -/
structure IsNewest (n : Nat) (all chosen : List Entry) : Prop where
  member : ∀ b ∈ chosen, b ∈ all
  count : chosen.length = min n all.length
  newest : ∀ b ∈ chosen, ∀ other ∈ all, other ∉ chosen → other.modTime ≤ b.modTime

/-- Archiving of `before` is stable: `after` is the tree it leaves, `again` the
run after it. -/
structure ArchiveStable (unmarshal : String → Option Sidecar) (base : String) (n : Nat)
    (before after : FileTree) (again : World × ArchiveResult) : Prop where
  hot : IsNewest n (hotBackups before base) (hotBackups after base)
  archived : ∀ b ∈ hotBackups before base, b ∉ hotBackups after base →
    ∃ original ∈ before.files, ∃ copy ∈ after.files,
      original.path = base ++ "/" ++ b.path ∧ copy.path = base ++ "/archive/" ++ b.path ∧
        copy.content = original.content
  settled : again.2.moved = 0 ∧ again.1.tree = after
  uncounted : ∀ b ∈ listBackupsWithSidecars (folderStore unmarshal after base),
    inArchive b.fileName = false
  undeleted : ∀ env policy, ∀ name ∈ applyPrune env (folderStore unmarshal after base) policy,
    inArchive name = false

/-! ### What moving does to the tree -/

variable (io : StorageCalls)

/-- A move copies a file to the archive and then takes it away, or stops before
one of the two. -/
theorem moveFile_tree (src dst path : String) (world : World) :
    (moveFile io src dst path world).1.tree = world.tree ∨
      ∃ file : File, file.path = objectPath dst path ∧
        ((moveFile io src dst path world).1.tree = world.tree.put file ∨
          (moveFile io src dst path world).1.tree =
            (world.tree.put file).erase (objectPath src path)) := by
  unfold moveFile
  split
  · exact .inl rfl
  · unfold World.download
    cases (if io.fails world.calls then none
        else (world.tree.find? (objectPath src path)).map File.content) with
    | none => exact .inl rfl
    | some content =>
      simp only [World.upload]
      by_cases uploadFails : io.fails world.called.calls = true
      · rw [if_pos uploadFails]
        exact .inl rfl
      · rw [if_neg uploadFails]
        right
        refine ⟨⟨objectPath dst path, content, io.clock world.called.calls⟩, rfl, ?_⟩
        simp only [World.delete]
        split
        · rename_i stopped
          split at stopped
          · rename_i deleteFails
            left
            rw [← (Prod.mk.inj stopped).1]
            rfl
          · exact absurd (Prod.mk.inj stopped).2 (by decide)
        · rename_i finished
          split at finished
          · exact absurd (Prod.mk.inj finished).2 (by decide)
          · right
            rw [← (Prod.mk.inj finished).1]
            rfl

section Loop

variable {io : StorageCalls} {src dst : String} {Holds : FileTree → Prop}

/-- What every single move preserves, the archive loop preserves, however far
it gets. -/
theorem archiveLoop_preserves
    (step : ∀ path world, Holds world.tree → Holds (moveFile io src dst path world).1.tree)
    (toArchive : List Entry) (moved : Nat) (candidates : List String) (world : World)
    (holds : Holds world.tree) :
    Holds (archiveLoop io src dst toArchive moved candidates world).1.tree := by
  induction toArchive generalizing moved candidates world with
  | nil => exact holds
  | cons b rest ih =>
    have afterMove := step b.path world holds
    unfold archiveLoop
    cases outcome : moveFile io src dst b.path world with
    | mk next error =>
      rw [outcome] at afterMove
      cases error with
      | some _ => exact afterMove
      | none =>
        apply ih
        unfold moveCompanions companions
        simp only [List.foldl_cons, List.foldl_nil]
        exact step _ _ (step _ _ (step _ _ afterMove))

end Loop

/-! ### Backups below the archive -/

def Present (tree : FileTree) (base relative : String) : Prop :=
  ∃ f ∈ tree.files, f.path = base ++ "/" ++ relative

def BackupInArchive (tree : FileTree) (base : String) : Prop :=
  ∃ relative, inArchive relative = true ∧ archivable relative = true ∧
    Present tree base relative

theorem objectPath_archive (base path : String) :
    objectPath (base ++ "/archive") path = base ++ "/" ++ ("archive/" ++ trimPrefix path "/") := by
  unfold objectPath
  apply String.toList_injective
  simp

variable {path : String}

theorem isBackupFile_slashes (slashes : ∀ c ∈ path.toList, c = '/') :
    isBackupFile path = false := by
  have base : filepathBase path = "." ∨ filepathBase path = "/" := by
    unfold filepathBase
    split
    · exact .inl rfl
    · right
      have trimmed : path.toList.reverse.dropWhile (· = '/') = [] := by
        rw [List.dropWhile_eq_nil_iff]
        intro c member
        simpa using slashes c (List.mem_reverse.mp member)
      simp [trimmed]
  have noDot : filenameTokens "." = none := by decide +kernel
  have noSlash : filenameTokens "/" = none := by decide +kernel
  unfold isBackupFile parseBackupFilename
  rcases base with base | base
  · simp only [base, noDot, Except.isOk, Except.toBool]
  · simp only [base, noSlash, Except.isOk, Except.toBool]

/-- The archive folder is a folder like any other: what is a backup outside it
is one inside it. -/
theorem archivable_in_archive (isBackup : archivable path = true) :
    archivable ("archive/" ++ path) = true := by
  unfold archivable at isBackup ⊢
  rw [Bool.and_eq_true, Bool.not_eq_true'] at isBackup ⊢
  obtain ⟨notSidecar, isFile⟩ := isBackup
  constructor
  · by_contra present
    rw [Bool.not_eq_false] at present
    have stillEnds : hasSuffix path ".json" = true :=
      @hasSuffix_of_append_slash "archive" path ".json" (by decide) present
    rw [notSidecar] at stillEnds
    exact absurd stillEnds (by decide)
  · have named : ∃ c ∈ path.toList, c ≠ '/' := by
      by_contra allSlashes
      have slashes : ∀ c ∈ path.toList, c = '/' := by
        intro c member
        by_contra notSlash
        exact allSlashes ⟨c, member, notSlash⟩
      rw [isBackupFile_slashes slashes] at isFile
      exact absurd isFile (by decide)
    have sameBase : filepathBase ("archive/" ++ path) = filepathBase path :=
      filepathBase_append "archive" named
    unfold isBackupFile parseBackupFilename at isFile ⊢
    rw [sameBase]
    exact isFile

theorem inArchive_append (path : String) : inArchive ("archive/" ++ path) = true :=
  hasPrefix_append _ _

theorem inArchive_ne_empty (nested : inArchive path = true) : path ≠ "" := by
  rintro rfl
  exact absurd nested (by decide)

/-- A copy below the archive never has the path of its original. -/
theorem archiveCopy_ne (base path : String) :
    objectPath (base ++ "/archive") path ≠ objectPath base path := by
  rw [objectPath_archive]
  unfold objectPath
  intro same
  have sameLength := congrArg (fun text => text.toList.length) (append_left_inj same)
  simp at sameLength
  omega

/-- A move from a storage into its own archive folder hides no backup from the
storage: the file is still there, or a backup below the archive is. -/
theorem moveFile_present (base path : String) {world : World}
    {relative : String} (isBackup : archivable relative = true)
    (present : Present world.tree base relative) :
    Present (moveFile io base (base ++ "/archive") path world).1.tree base relative ∨
      BackupInArchive (moveFile io base (base ++ "/archive") path world).1.tree base := by
  obtain ⟨f, member, fPath⟩ := present
  rcases moveFile_tree io base (base ++ "/archive") path world with same | ⟨copy, copyPath, outcome⟩
  · rw [same]
    exact .inl ⟨f, member, fPath⟩
  · have afterUpload : ∃ g ∈ (world.tree.put copy).files, g.path = f.path := by
      by_cases replaced : f.path = copy.path
      · exact ⟨copy, FileTree.mem_put.mpr (.inl rfl), replaced.symm⟩
      · exact ⟨f, FileTree.mem_put.mpr (.inr ⟨member, replaced⟩), rfl⟩
    obtain ⟨g, gMember, gPath⟩ := afterUpload
    rcases outcome with uploaded | moved
    · rw [uploaded]
      exact .inl ⟨g, gMember, gPath.trans fPath⟩
    · rw [moved]
      by_cases isMoved : g.path = objectPath base path
      · -- The backup itself was taken away, so its copy is the one in the archive.
        right
        have sameName : relative = trimPrefix path "/" := by
          rw [gPath, fPath] at isMoved
          exact append_left_inj isMoved
        refine ⟨"archive/" ++ relative, inArchive_append _, archivable_in_archive isBackup,
          copy, FileTree.mem_erase.mpr ⟨FileTree.mem_put.mpr (.inl rfl), ?_⟩, ?_⟩
        · rw [copyPath]
          exact archiveCopy_ne base path
        · rw [copyPath, objectPath_archive, sameName]
      · exact .inl ⟨g, FileTree.mem_erase.mpr ⟨gMember, isMoved⟩, gPath.trans fPath⟩

/-- Since `before`, every backup stayed in place or some backup is below the
archive. -/
def NothingHidden (before : FileTree) (base : String) (tree : FileTree) : Prop :=
  BackupInArchive tree base ∨
    ∀ relative, archivable relative = true → Present before base relative →
      Present tree base relative

theorem moveFile_nothingHidden {before : FileTree}
    (path : String) (world : World) (holds : NothingHidden before base world.tree) :
    NothingHidden before base (moveFile io base (base ++ "/archive") path world).1.tree := by
  rcases holds with ⟨relative, nested, isBackup, present⟩ | allPresent
  · left
    rcases moveFile_present io base path isBackup present with stays | other
    · exact ⟨relative, nested, isBackup, stays⟩
    · exact other
  · by_cases inside :
        BackupInArchive (moveFile io base (base ++ "/archive") path world).1.tree base
    · exact .inl inside
    · right
      intro relative isBackup wasPresent
      rcases moveFile_present io base path isBackup (allPresent relative isBackup wasPresent) with
        stays | other
      · exact stays
      · exact absurd other inside

/-! ### Runs -/

section Runs

variable (sort : SliceSort newerFile) (io : StorageCalls) (root : String) {job : ArchiveJob}
  {last : Int} (now : Int)

theorem archiveConfig_dst (default : job.archivePath = "") (configured : job.storagePath ≠ "") :
    (archiveConfig root job last).dst = job.storagePath ++ "/archive" := by
  unfold archiveConfig archiveStorageCfg
  rw [if_pos default, if_neg configured]

theorem runArchive_nothingHidden (default : job.archivePath = "")
    (configured : job.storagePath ≠ "") (world : World) :
    NothingHidden world.tree job.storagePath
      (runArchive sort io (archiveConfig root job last) now world).1.tree := by
  have unchanged : NothingHidden world.tree job.storagePath world.tree :=
    .inr fun _ _ present => present
  unfold runArchive World.list
  split
  · rename_i listing
    rw [← (Prod.mk.inj listing).1]
    exact unchanged
  · rename_i next entries listing
    have sameTree : next.tree = world.tree := by
      rw [← (Prod.mk.inj listing).1]
      rfl
    simp only
    split
    · rw [sameTree]
      exact unchanged
    · split
      · rw [sameTree]
        exact unchanged
      · rw [archiveConfig_dst root default configured]
        apply archiveLoop_preserves
        · intro path state holds
          exact moveFile_nothingHidden io path state holds
        · rw [sameTree]
          exact unchanged

/-- With at most `last` backups in the storage nothing is moved. -/
theorem runArchive_of_few (cfg : ArchiveConfig) (noWindow : cfg.within = 0)
    (world : World) (few : ((backupsIn world.tree cfg.src).length : Int) ≤ cfg.last) :
    (runArchive sort io cfg now world).1.tree = world.tree ∧
      (runArchive sort io cfg now world).2.moved = 0 := by
  unfold runArchive World.list
  split
  · rename_i listing
    rw [← (Prod.mk.inj listing).1]
    exact ⟨rfl, rfl⟩
  · rename_i next entries listing
    have sameTree : next.tree = world.tree := by
      rw [← (Prod.mk.inj listing).1]
      rfl
    have isListing : entries = listFolder world.tree cfg.src := by
      have outcome := (Prod.mk.inj listing).2
      split at outcome
      · cases outcome
      · exact (Option.some.inj outcome).symm
    simp only
    split
    · exact ⟨sameTree, rfl⟩
    · rename_i some
      have sortedLength := (sort.perm (entries.filter fun e => archivable e.path)).length_eq
      have sameBackups : entries.filter (fun e => archivable e.path) =
          backupsIn world.tree cfg.src := by rw [isListing, backupsIn]
      rw [sameBackups] at some sortedLength
      have kept : (sort.run (backupsIn world.tree cfg.src)).length ≤
          keepCount cfg now (sort.run (backupsIn world.tree cfg.src)) := by
        unfold keepCount
        rw [if_neg (by omega), if_pos (by omega)]
        omega
      rw [sameBackups, if_pos kept]
      exact ⟨sameTree, rfl⟩

end Runs

/-! ### Listing and pruning -/

theorem mem_backupsIn :
    entry ∈ backupsIn tree base ↔
      entry ∈ listFolder tree base ∧ archivable entry.path = true := by
  unfold backupsIn
  exact List.mem_filter

theorem backupsIn_distinct (tree : FileTree) (base : String) :
    ((backupsIn tree base).map Entry.path).Nodup :=
  (listFolder_distinct tree base).sublist (List.filter_sublist.map Entry.path)

/-- The names a prune counts are the backups an archive run counts. -/
theorem names_listBackupsWithSidecars (unmarshal : String → Option Sidecar) (tree : FileTree)
    (base : String) :
    (listBackupsWithSidecars (folderStore unmarshal tree base)).map BackupEntry.fileName =
      (backupsIn tree base).map Entry.path := by
  unfold listBackupsWithSidecars backupsIn
  rw [List.map_map]
  rfl

theorem present_of_mem_backupsIn
    (member : entry ∈ backupsIn tree base) : Present tree base entry.path := by
  obtain ⟨f, inTree, path, -⟩ := mem_listFolder.mp (mem_backupsIn.mp member).1
  exact ⟨f, inTree, path⟩

theorem exists_mem_backupsIn {base relative : String}
    (notEmpty : relative ≠ "") (isBackup : archivable relative = true)
    (present : Present tree base relative) :
    ∃ entry ∈ backupsIn tree base, entry.path = relative := by
  obtain ⟨f, member, path⟩ := present
  refine ⟨⟨relative, f.content.utf8ByteSize, f.modTime⟩, ?_, rfl⟩
  exact mem_backupsIn.mpr ⟨mem_listFolder.mpr ⟨f, member, path, notEmpty, rfl, rfl⟩, isBackup⟩

theorem backupInArchive_iff :
    BackupInArchive tree base ↔ ∃ b ∈ backupsIn tree base, inArchive b.path = true := by
  constructor
  · intro ⟨relative, nested, isBackup, present⟩
    obtain ⟨b, member, path⟩ := exists_mem_backupsIn (inArchive_ne_empty nested) isBackup present
    exact ⟨b, member, by rw [path]; exact nested⟩
  · intro ⟨b, member, nested⟩
    exact ⟨b.path, nested, (mem_backupsIn.mp member).2, present_of_mem_backupsIn member⟩

/-- A prune counts no archived file exactly if no backup lies in the archive. -/
theorem uncounted_iff (unmarshal : String → Option Sidecar) (tree : FileTree) (base : String) :
    (∀ b ∈ listBackupsWithSidecars (folderStore unmarshal tree base),
        inArchive b.fileName = false) ↔ ¬ BackupInArchive tree base := by
  have sameNames := names_listBackupsWithSidecars unmarshal tree base
  rw [backupInArchive_iff]
  constructor
  · intro uncounted ⟨b, member, nested⟩
    have listed : b.path ∈ (listBackupsWithSidecars (folderStore unmarshal tree base)).map
        BackupEntry.fileName := by
      rw [sameNames]
      exact List.mem_map_of_mem member
    obtain ⟨e, eMember, ePath⟩ := List.mem_map.mp listed
    have notNested := uncounted e eMember
    rw [ePath, nested] at notNested
    exact absurd notNested (by decide)
  · intro none_ e member
    have listed : e.fileName ∈ (backupsIn tree base).map Entry.path := by
      rw [← sameNames]
      exact List.mem_map_of_mem member
    obtain ⟨b, bMember, bPath⟩ := List.mem_map.mp listed
    by_contra nested
    rw [Bool.not_eq_false, ← bPath] at nested
    exact none_ ⟨b, bMember, nested⟩

theorem applyPrune_listed {env : RetentionEnv} {store : Store} {policy : RetentionPolicy}
    {name : String} (deleted : name ∈ applyPrune env store policy) :
    ∃ b ∈ listBackupsWithSidecars store, b.fileName = name := by
  unfold applyPrune at deleted
  split at deleted
  · cases deleted
  · split at deleted
    · rw [applyRetention_eq, mem_applyRetentionAt_iff] at deleted
      exact deleted.1
    · split at deleted
      · cases deleted
      · rw [applyRetention_eq, mem_applyRetentionAt_iff] at deleted
        exact deleted.1

/-! ### Stability -/

theorem hotBackups_eq_backupsIn
    (noneInside : ¬ BackupInArchive tree base) : hotBackups tree base = backupsIn tree base := by
  unfold hotBackups
  rw [List.filter_eq_self]
  intro b member
  by_contra nested
  exact noneInside (backupInArchive_iff.mpr ⟨b, member, by simpa using nested⟩)

/-- If no backup is below the archive afterwards, a run left every backup it
found where it was. -/
theorem length_hot_le_of_not_inArchive {before after : FileTree}
    (nothingHidden : NothingHidden before base after)
    (noneInside : ¬ BackupInArchive after base) :
    (hotBackups before base).length ≤ (hotBackups after base).length := by
  have allPresent := nothingHidden.resolve_left noneInside
  have wasOutside : ¬ BackupInArchive before base := by
    intro ⟨relative, nested, isBackup, present⟩
    exact noneInside ⟨relative, nested, isBackup, allPresent relative isBackup present⟩
  rw [hotBackups_eq_backupsIn noneInside, hotBackups_eq_backupsIn wasOutside]
  have subset : (backupsIn before base).map Entry.path ⊆ (backupsIn after base).map Entry.path := by
    intro path listed
    obtain ⟨b, member, rfl⟩ := List.mem_map.mp listed
    obtain ⟨listedFile, isBackup⟩ := mem_backupsIn.mp member
    obtain ⟨f, -, -, notEmpty, -⟩ := mem_listFolder.mp listedFile
    obtain ⟨entry, entryMember, entryPath⟩ := exists_mem_backupsIn notEmpty isBackup
      (allPresent b.path isBackup (present_of_mem_backupsIn member))
    rw [← entryPath]
    exact List.mem_map_of_mem entryMember
  have shorter := ((backupsIn_distinct before base).subperm subset).length_le
  simpa using shorter

/-- Archiving into the nested folder is stable exactly where it does nothing:
the storage holds at most `last` backups and none of them is in the archive.
This is so in every run, whichever of its calls fail. -/
theorem archiveStable_iff (unmarshal : String → Option Sidecar) (sort : SliceSort newerFile)
    (io : StorageCalls) (root : String) (job : ArchiveJob) (last now later : Int) (world : World)
    (default : job.archivePath = "") (configured : job.storagePath ≠ "") (positive : 1 ≤ last) :
    ArchiveStable unmarshal job.storagePath last.toNat world.tree
        (runArchive sort io (archiveConfig root job last) now world).1.tree
        (runArchive sort io (archiveConfig root job last) later
          (runArchive sort io (archiveConfig root job last) now world).1) ↔
      (backupsIn world.tree job.storagePath).length ≤ last ∧
        ∀ b ∈ backupsIn world.tree job.storagePath, inArchive b.path = false := by
  have nothingHidden : NothingHidden world.tree job.storagePath
      (runArchive sort io (archiveConfig root job last) now world).1.tree :=
    runArchive_nothingHidden sort io root now default configured world
  generalize hFirst : runArchive sort io (archiveConfig root job last) now world = first at *
  constructor
  · intro stable
    have noneInside := (uncounted_iff unmarshal _ _).mp stable.uncounted
    have wasOutside : ¬ BackupInArchive world.tree job.storagePath := by
      intro ⟨relative, nested, isBackup, present⟩
      exact noneInside ⟨relative, nested, isBackup,
        nothingHidden.resolve_left noneInside relative isBackup present⟩
    constructor
    · have grows := length_hot_le_of_not_inArchive nothingHidden noneInside
      have count := stable.hot.count
      rw [hotBackups_eq_backupsIn wasOutside] at grows count
      omega
    · intro b member
      by_contra nested
      exact wasOutside (backupInArchive_iff.mpr ⟨b, member, by simpa using nested⟩)
  · intro ⟨few, outside⟩
    have noneInside : ¬ BackupInArchive world.tree job.storagePath := by
      intro inside
      obtain ⟨b, member, nested⟩ := backupInArchive_iff.mp inside
      rw [outside b member] at nested
      exact absurd nested (by decide)
    have quiet := runArchive_of_few sort io now (archiveConfig root job last) rfl world few
    rw [hFirst] at quiet
    have quietAgain := runArchive_of_few sort io later (archiveConfig root job last) rfl first.1
      (by rw [quiet.1]; exact few)
    rw [quiet.1] at *
    have uncounted := (uncounted_iff unmarshal world.tree job.storagePath).mpr noneInside
    refine ⟨⟨fun b member => member, ?_, ?_⟩, ?_, ⟨quietAgain.2, quietAgain.1⟩, uncounted, ?_⟩
    · rw [hotBackups_eq_backupsIn noneInside]
      omega
    · intro b _ other member absent
      exact absurd member absent
    · intro b member absent
      exact absurd member absent
    · intro env policy name deleted
      obtain ⟨b, member, rfl⟩ := applyPrune_listed deleted
      exact uncounted b member

theorem newerFile_keyOrder : KeyOrder newerFile where
  trans a b c := by
    simp only [newerFile, decide_eq_false_iff_not]
    omega
  total a b := by
    simp only [newerFile, decide_eq_false_iff_not]
    omega

/-- No call fails; what the n-th call uploads is stamped `1000 + n`. -/
def quietCalls : StorageCalls where
  fails _ := false
  clock n := 1000 + n

def twoBackups : World where
  tree := {
    files := [
      ⟨"/backup/hot/mysql-app-db-full-20240101-000000.sql", "monday", 100⟩,
      ⟨"/backup/hot/mysql-app-db-full-20240102-000000.sql", "tuesday", 200⟩]
    distinct := by decide }
  calls := 0

def nightlyJob : ArchiveJob where
  name := "nightly"
  storagePath := "/backup/hot"

def runNightly (world : World) : World × ArchiveResult :=
  runArchive (insertionSliceSort newerFile newerFile_keyOrder) quietCalls
    (archiveConfig "/backup" nightlyJob 1) 2000 world

/-- With `last = 1` the first run moves the older backup. Its copy is now the
newest file of the storage, so the second run moves the other one. -/
theorem runArchive_twice_moves_newest :
    (runNightly twoBackups).2.error = none ∧
      (runNightly (runNightly twoBackups).1).2.candidates =
        ["mysql-app-db-full-20240102-000000.sql"] ∧
      ¬ ArchiveStable (fun _ => none) "/backup/hot" 1 twoBackups.tree
        (runNightly twoBackups).1.tree (runNightly (runNightly twoBackups).1) := by
  have ⟨successful, again⟩ : (runNightly twoBackups).2.error = none ∧
      (runNightly (runNightly twoBackups).1).2 =
        ⟨1, ["mysql-app-db-full-20240102-000000.sql"], none⟩ := by decide +kernel
  refine ⟨successful, by rw [again], ?_⟩
  intro stable
  have settled := stable.settled.1
  rw [again] at settled
  exact absurd settled (by decide)

theorem archiveStable_within_limit :
    ArchiveStable (fun _ => none) "/backup/hot" 2 twoBackups.tree
      (runArchive (insertionSliceSort newerFile newerFile_keyOrder) quietCalls
        (archiveConfig "/backup" nightlyJob 2) 2000 twoBackups).1.tree
      (runArchive (insertionSliceSort newerFile newerFile_keyOrder) quietCalls
        (archiveConfig "/backup" nightlyJob 2) 2000
        (runArchive (insertionSliceSort newerFile newerFile_keyOrder) quietCalls
          (archiveConfig "/backup" nightlyJob 2) 2000 twoBackups).1) := by
  apply (archiveStable_iff (fun _ => none) (insertionSliceSort newerFile newerFile_keyOrder)
    quietCalls "/backup" nightlyJob 2 2000 2000 twoBackups rfl (by decide) (by decide)).mpr
  have listed : (backupsIn twoBackups.tree nightlyJob.storagePath).map Entry.path =
      ["mysql-app-db-full-20240101-000000.sql", "mysql-app-db-full-20240102-000000.sql"] := by
    decide +kernel
  constructor
  · have count := congrArg List.length listed
    rw [List.length_map] at count
    rw [count]
    decide
  · intro b member
    have path : b.path ∈ (backupsIn twoBackups.tree nightlyJob.storagePath).map Entry.path :=
      List.mem_map_of_mem member
    rw [listed] at path
    simp only [List.mem_cons, List.not_mem_nil, or_false] at path
    rcases path with path | path
    · rw [path]
      decide
    · rw [path]
      decide

end DbBackup.Retention
