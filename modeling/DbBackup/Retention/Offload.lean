import DbBackup.Retention.Archive
import DbBackup.Storage.Agreement

/-!
Owns what an archive run leaves behind under faults: which backups are still in
hot storage, which are in the archive, and what the returned count says.

Contract: `visits` are the candidates a run comes to, each with the world its
move starts in. A visit whose three storage calls pass moves its backup; one
whose download fails is counted and moves nothing. A run is sound
(`ArchiveSound`) exactly if no download of a visited candidate fails and no
chain is left without its base.

Does not own the archive nested in the hot storage (`Retention.Archive`): here
the two are different locations.
-/

set_option linter.all false

namespace DbBackup.Retention

open Lib Lib.GoString Lib.Sorting Storage

/-- No object lies in both storages. -/
def DifferentLocations (src dst : String) : Prop :=
  ∀ path other, src ++ "/" ++ path ≠ dst ++ "/" ++ other

/-- The listed names address the objects they are listed for: `Download` and
`Delete` cut a leading slash off. -/
def CleanNames (tree : FileTree) (src : String) : Prop :=
  ∀ e ∈ listFolder tree src, hasPrefix e.path "/" = false

/-- `b` is an increment whose sidecar names `base`. -/
def BasedOn (unmarshal : String → Option Sidecar) (tree : FileTree) (src b base : String) : Prop :=
  ∃ sc, (folderStore unmarshal tree src).readSidecar b = some sc ∧
    sc.strategy ≠ Strategy.full.text ∧ sc.base = base

/-- The backups that are no longer in hot storage. -/
def leftHot (before after : FileTree) (src : String) : List Entry :=
  (backupsIn before src).filter fun e => (after.find? (src ++ "/" ++ e.path)).isNone

structure ArchiveSound (unmarshal : String → Option Sidecar) (src dst : String)
    (before after : FileTree) (moved : Nat) : Prop where
  readable : ∀ e ∈ backupsIn before src, ∀ f ∈ before.files, f.path = src ++ "/" ++ e.path →
    ∃ g ∈ after.files, g.content = f.content ∧
      (g.path = src ++ "/" ++ e.path ∨ g.path = dst ++ "/" ++ e.path)
  counted : moved = (leftHot before after src).length
  whole : ∀ b ∈ backupsIn after src, ∀ base ∈ leftHot before after src,
    ¬ BasedOn unmarshal before src b.path base.path

/-! ### Visits -/

/-- The candidates the loop comes to, and the world each move starts in. -/
def visits (io : StorageCalls) (src dst : String) : List Entry → World → List (Entry × World)
  | [], _ => []
  | b :: rest, world =>
    (b, world) ::
      match moveFile io src dst b.path world with
      | (_, some _) => []
      | (next, none) => visits io src dst rest (moveCompanions io src dst b.path next)

/-- The download, the upload and the delete that start in `world` all succeed. -/
def passes (io : StorageCalls) (world : World) : Bool :=
  !io.fails world.calls && !io.fails (world.calls + 1) && !io.fails (world.calls + 2)

def unreadable (io : StorageCalls) (world : World) : Bool := io.fails world.calls

def movedBy (io : StorageCalls) (visited : List (Entry × World)) : List String :=
  (visited.filter fun visit => passes io visit.2).map fun visit => visit.1.path

theorem visits_isPrefix (io : StorageCalls) (src dst : String) (toArchive : List Entry)
    (world : World) : (visits io src dst toArchive world).map Prod.fst <+: toArchive := by
  induction toArchive generalizing world with
  | nil => simp [visits]
  | cons b rest ih =>
    rw [visits, List.map_cons, List.prefix_cons_inj]
    split
    · exact List.nil_prefix
    · exact ih _

theorem movedBy_sublist (io : StorageCalls) (src dst : String) (toArchive : List Entry)
    (world : World) :
    (movedBy io (visits io src dst toArchive world)).Sublist (toArchive.map Entry.path) := by
  have entries := (visits_isPrefix io src dst toArchive world).sublist.map Entry.path
  rw [List.map_map] at entries
  exact (List.filter_sublist.map _).trans entries

/-! ### One move -/

section Move

variable {io : StorageCalls} {src dst path : String} {world : World} {file : File}

/-- The copy a move makes. -/
def archiveCopy (io : StorageCalls) (dst path : String) (world : World) (file : File) : File :=
  ⟨objectPath dst path, file.content, io.clock (world.calls + 1)⟩

/-- Everything a move of a file that is there can do. -/
theorem moveFile_cases (named : path ≠ "")
    (found : world.tree.find? (objectPath src path) = some file) :
    (unreadable io world = true ∧ (moveFile io src dst path world).2 = none ∧
        (moveFile io src dst path world).1.tree = world.tree) ∨
      (unreadable io world = false ∧ passes io world = false ∧
        (moveFile io src dst path world).2 ≠ none ∧
        ((moveFile io src dst path world).1.tree = world.tree ∨
          (moveFile io src dst path world).1.tree =
            world.tree.put (archiveCopy io dst path world file))) ∨
      (passes io world = true ∧ (moveFile io src dst path world).2 = none ∧
        (moveFile io src dst path world).1.tree =
          (world.tree.put (archiveCopy io dst path world file)).erase (objectPath src path)) := by
  unfold moveFile unreadable passes
  rw [if_neg named]
  unfold World.download World.upload World.delete
  cases download : io.fails world.calls with
  | true => exact .inl ⟨rfl, rfl, rfl⟩
  | false =>
  right
  cases upload : io.fails (world.calls + 1) with
  | true =>
    left
    simp [found, upload, World.called]
  | false =>
    cases delete : io.fails (world.calls + 1 + 1) with
    | true =>
      left
      simp [found, upload, delete, World.called, archiveCopy]
    | false =>
      right
      simp [found, upload, delete, World.called, archiveCopy]

end Move

/-! ### Names -/

theorem objectPath_of_clean {base path : String} (clean : hasPrefix path "/" = false) :
    objectPath base path = base ++ "/" ++ path := by
  unfold objectPath trimPrefix
  rw [clean, if_neg (by simp)]

theorem hasPrefix_slash_append {path ending : String} (named : path ≠ "")
    (clean : hasPrefix path "/" = false) : hasPrefix (path ++ ending) "/" = false := by
  unfold hasPrefix at clean ⊢
  rw [String.toList_append]
  cases chars : path.toList with
  | nil => exact absurd (String.toList_injective chars) named
  | cons first rest =>
    rw [chars] at clean
    simpa [List.isPrefixOf] using clean

/-- No ending of a backup is `.md5` or `.sha1`. -/
theorem isBackupFile_checksum (path : String) {word : List Char}
    (checksum : word ∈ ["md5".toList, "sha1".toList]) :
    isBackupFile (path ++ String.ofList ('.' :: word)) = false := by
  by_contra accepted
  rw [Bool.not_eq_false] at accepted
  unfold isBackupFile at accepted
  cases read : parseBackupFilename (path ++ String.ofList ('.' :: word)) with
  | error err =>
    rw [read] at accepted
    simp [Except.isOk, Except.toBool] at accepted
  | ok info =>
    obtain ⟨tokens, -, found, -, -⟩ := parseBackupFilename_eq_ok_iff.mp read
    obtain ⟨start, slashes, stamp, valid, shape, allSlashes, -, -⟩ :=
      exists_stamp_of_filenameTokens found
    have wordFacts : ∀ word ∈ ["md5".toList, "sha1".toList],
        word ≠ [] ∧ word.length ≤ 4 ∧ word.getLast? ≠ some '/' := by decide
    obtain ⟨notEmpty, short, notSlash⟩ := wordFacts word checksum
    have endsInWord : word <:+ start ++ '-' :: stamp.render ++ slashes := by
      rw [← shape]
      exact ⟨path.toList ++ ['.'], by simp⟩
    have noSlashes : slashes = [] := by
      by_contra some
      apply notSlash
      obtain ⟨rest, whole⟩ := endsInWord
      rw [← List.getLast?_append_of_ne_nil rest notEmpty, whole,
        List.getLast?_append_of_ne_nil _ some, List.getLast?_eq_some_getLast some,
        allSlashes _ (List.getLast_mem some)]
    have endings : ∀ format ∈ ["sql", "mongo", "redis", "influx", "couch"],
        ∀ compress ∈ none :: ["zst", "gz", "bz2", "xz"].map some,
        ∀ enc ∈ none :: ["age", "enc", "gpg"].map some,
        ∀ word ∈ ["md5".toList, "sha1".toList],
          4 ≤ ('.' :: (format.toList ++ optionalPart '.' compress ++
            optionalPart '.' enc)).length ∧
          ¬ word <:+ '.' :: (format.toList ++ optionalPart '.' compress ++
            optionalPart '.' enc) := by
      decide +kernel
    obtain ⟨long, notEnding⟩ := endings _ valid.format _ (mem_options valid.compress) _
      (mem_options valid.enc) word checksum
    apply notEnding
    have stampEnds : stamp.ending <:+ start ++ '-' :: stamp.render ++ slashes := by
      rw [noSlashes]
      refine ⟨start ++ '-' :: (stamp.strat.toList ++ '-' :: (stamp.date.toList ++
        '-' :: (stamp.time.toList ++ optionalPart '-' stamp.suffix))), ?_⟩
      simp [Stamp.render]
    exact List.suffix_of_suffix_length_le endsInWord stampEnds (by
      have isEnding : 4 ≤ stamp.ending.length := long
      omega)

theorem archivable_companion {path companion : String} (member : companion ∈ companions path) :
    archivable companion = false := by
  unfold companions at member
  simp only [List.mem_cons, List.not_mem_nil, or_false] at member
  unfold archivable
  rcases member with rfl | rfl | rfl
  · rw [sidecarName, hasSuffix_append]
    rfl
  · have refused := @isBackupFile_checksum path "md5".toList (by simp)
    rw [show path ++ ".md5" = path ++ String.ofList ('.' :: "md5".toList) from rfl, refused,
      Bool.and_false]
  · have refused := @isBackupFile_checksum path "sha1".toList (by simp)
    rw [show path ++ ".sha1" = path ++ String.ofList ('.' :: "sha1".toList) from rfl, refused,
      Bool.and_false]

theorem companion_clean {path companion : String} (named : path ≠ "")
    (clean : hasPrefix path "/" = false) (member : companion ∈ companions path) :
    hasPrefix companion "/" = false := by
  unfold companions at member
  simp only [List.mem_cons, List.not_mem_nil, or_false] at member
  rcases member with rfl | rfl | rfl
  · exact hasPrefix_slash_append named clean
  · exact hasPrefix_slash_append named clean
  · exact hasPrefix_slash_append named clean

/-! ### What the tree holds during a run -/

/-- `tree` is `before` after the backups `gone` were moved: the other backups
of the hot storage are as they were. -/
structure Relocated (src dst : String) (before : FileTree) (gone : List String)
    (tree : FileTree) : Prop where
  backups : ∀ path ∈ gone, archivable path = true
  hot : ∀ path, archivable path = true → path ∉ gone → ∀ f : File,
    f.path = src ++ "/" ++ path → (f ∈ tree.files ↔ f ∈ before.files)
  left : ∀ path ∈ gone, ∀ f ∈ tree.files, f.path ≠ src ++ "/" ++ path
  archived : ∀ path ∈ gone, ∀ f ∈ before.files, f.path = src ++ "/" ++ path →
    ∃ g ∈ tree.files, g.path = dst ++ "/" ++ path ∧ g.content = f.content

namespace Relocated

variable {src dst : String} {before tree : FileTree} {gone : List String} {path : String}

theorem refl (src dst : String) (tree : FileTree) : Relocated src dst tree [] tree where
  backups := by simp
  hot _ _ _ _ _ := Iff.rfl
  left := by simp
  archived := by simp

/-- An upload to the archive under a name that was not moved. -/
theorem put (apart : DifferentLocations src dst) (held : Relocated src dst before gone tree)
    (fresh : path ∉ gone) {copy : File} (isCopy : copy.path = dst ++ "/" ++ path) :
    Relocated src dst before gone (tree.put copy) where
  backups := held.backups
  hot other isBackup stays f fPath := by
    rw [FileTree.mem_put, ← held.hot other isBackup stays f fPath]
    have differs : f.path ≠ copy.path := by
      rw [fPath, isCopy]
      exact apart other path
    constructor
    · rintro (rfl | kept)
      · exact absurd rfl differs
      · exact kept.1
    · intro kept
      exact .inr ⟨kept, differs⟩
  left other isGone f member := by
    rcases FileTree.mem_put.mp member with rfl | kept
    · rw [isCopy]
      exact fun same => apart other path same.symm
    · exact held.left other isGone f kept.1
  archived other isGone f member fPath := by
    obtain ⟨g, inTree, gPath, content⟩ := held.archived other isGone f member fPath
    refine ⟨g, FileTree.mem_put.mpr (.inr ⟨inTree, ?_⟩), gPath, content⟩
    rw [gPath, isCopy]
    intro same
    exact fresh (append_left_inj same ▸ isGone)

/-- A delete in hot storage of something that is no backup. -/
theorem erase (apart : DifferentLocations src dst) (held : Relocated src dst before gone tree)
    (noBackup : archivable path = false) :
    Relocated src dst before gone (tree.erase (src ++ "/" ++ path)) where
  backups := held.backups
  hot other isBackup stays f fPath := by
    rw [FileTree.mem_erase, ← held.hot other isBackup stays f fPath, fPath]
    constructor
    · exact And.left
    · intro kept
      refine ⟨kept, fun same => ?_⟩
      rw [append_left_inj same, noBackup] at isBackup
      exact absurd isBackup (by simp)
  left other isGone f member := held.left other isGone f (FileTree.mem_erase.mp member).1
  archived other isGone f member fPath := by
    obtain ⟨g, inTree, gPath, content⟩ := held.archived other isGone f member fPath
    refine ⟨g, FileTree.mem_erase.mpr ⟨inTree, ?_⟩, gPath, content⟩
    rw [gPath]
    exact fun same => apart path other same.symm

/-- An upload and a delete of the same backup. -/
theorem leave (apart : DifferentLocations src dst) (held : Relocated src dst before gone tree)
    (isBackup : archivable path = true) (fresh : path ∉ gone) {copy original : File}
    (isCopy : copy.path = dst ++ "/" ++ path) (content : copy.content = original.content)
    (wasThere : original ∈ before.files) (original_path : original.path = src ++ "/" ++ path) :
    Relocated src dst before (gone ++ [path]) ((tree.put copy).erase (src ++ "/" ++ path)) := by
  have uploaded := held.put apart fresh isCopy
  refine ⟨?_, ?_, ?_, ?_⟩
  · intro other member
    rcases List.mem_append.mp member with old | new
    · exact held.backups other old
    · rw [List.mem_singleton.mp new]
      exact isBackup
  · intro other otherBackup stays f fPath
    rw [List.mem_append, not_or, List.mem_singleton] at stays
    rw [FileTree.mem_erase, ← uploaded.hot other otherBackup stays.1 f fPath, fPath]
    constructor
    · exact And.left
    · intro kept
      exact ⟨kept, fun same => stays.2 (append_left_inj same)⟩
  · intro other member f inTree
    obtain ⟨inUploaded, differs⟩ := FileTree.mem_erase.mp inTree
    rcases List.mem_append.mp member with old | new
    · exact uploaded.left other old f inUploaded
    · rw [List.mem_singleton.mp new]
      exact differs
  · intro other member f inBefore fPath
    rcases List.mem_append.mp member with old | new
    · obtain ⟨g, inTree, gPath, sameContent⟩ := uploaded.archived other old f inBefore fPath
      refine ⟨g, FileTree.mem_erase.mpr ⟨inTree, ?_⟩, gPath, sameContent⟩
      rw [gPath]
      exact fun same => apart path other same.symm
    · rw [List.mem_singleton.mp new] at fPath ⊢
      have same : f = original := List.inj_on_of_nodup_map before.distinct inBefore wasThere
        (fPath.trans original_path.symm)
      refine ⟨copy, FileTree.mem_erase.mpr ⟨FileTree.mem_put.mpr (.inl rfl), ?_⟩, isCopy,
        same ▸ content⟩
      rw [isCopy]
      exact fun same => apart path path same.symm

end Relocated

/-! ### The loop -/

section Loop

variable {io : StorageCalls} {src dst : String} {before : FileTree} {gone : List String}

theorem moveFile_relocated (apart : DifferentLocations src dst) {path : String} {world : World}
    (held : Relocated src dst before gone world.tree) (noBackup : archivable path = false)
    (clean : hasPrefix path "/" = false) :
    Relocated src dst before gone (moveFile io src dst path world).1.tree := by
  have fresh : path ∉ gone := by
    intro isGone
    have isBackup := held.backups path isGone
    rw [noBackup] at isBackup
    exact absurd isBackup (by simp)
  rcases moveFile_tree io src dst path world with same | ⟨file, filePath, copied | moved⟩
  · rw [same]
    exact held
  · rw [copied]
    exact held.put apart fresh (filePath.trans (objectPath_of_clean clean))
  · rw [moved, objectPath_of_clean clean]
    exact (held.put apart fresh (filePath.trans (objectPath_of_clean clean))).erase apart noBackup

theorem moveCompanions_relocated (apart : DifferentLocations src dst) {path : String}
    {world : World} (held : Relocated src dst before gone world.tree) (named : path ≠ "")
    (clean : hasPrefix path "/" = false) :
    Relocated src dst before gone (moveCompanions io src dst path world).tree := by
  have all : ∀ companion ∈ companions path,
      archivable companion = false ∧ hasPrefix companion "/" = false := fun companion member =>
    ⟨archivable_companion member, companion_clean named clean member⟩
  unfold moveCompanions
  generalize companions path = beside at all
  induction beside generalizing world with
  | nil => exact held
  | cons companion others ih =>
    obtain ⟨noBackup, companionClean⟩ := all companion (by simp)
    exact ih (moveFile_relocated apart held noBackup companionClean)
      fun other member => all other (by simp [member])

/-- The candidates of a run: backups of the hot storage, each listed once. -/
structure Candidates (src : String) (before : FileTree) (gone : List String)
    (toArchive : List Entry) : Prop where
  listed : ∀ b ∈ toArchive, b ∈ backupsIn before src
  clean : ∀ b ∈ toArchive, hasPrefix b.path "/" = false
  fresh : ∀ b ∈ toArchive, b.path ∉ gone
  distinct : (toArchive.map Entry.path).Nodup

theorem Candidates.tail {b : Entry} {rest : List Entry}
    (candidates : Candidates src before gone (b :: rest)) : Candidates src before gone rest where
  listed c member := candidates.listed c (by simp [member])
  clean c member := candidates.clean c (by simp [member])
  fresh c member := candidates.fresh c (by simp [member])
  distinct := (List.nodup_cons.mp candidates.distinct).2

theorem Candidates.tail_gone {b : Entry} {rest : List Entry}
    (candidates : Candidates src before gone (b :: rest)) :
    Candidates src before (gone ++ [b.path]) rest where
  listed := candidates.tail.listed
  clean := candidates.tail.clean
  fresh c member := by
    rw [List.mem_append, not_or, List.mem_singleton]
    refine ⟨candidates.tail.fresh c member, fun same => ?_⟩
    have notAgain := (List.nodup_cons.mp candidates.distinct).1
    exact notAgain (same ▸ List.mem_map_of_mem member)
  distinct := candidates.tail.distinct

theorem archiveLoop_relocated (apart : DifferentLocations src dst) (toArchive : List Entry)
    (moved : Nat) (names : List String) (world : World)
    (held : Relocated src dst before gone world.tree)
    (candidates : Candidates src before gone toArchive) :
    Relocated src dst before (gone ++ movedBy io (visits io src dst toArchive world))
        (archiveLoop io src dst toArchive moved names world).1.tree ∧
      (archiveLoop io src dst toArchive moved names world).2.moved =
        moved + ((visits io src dst toArchive world).filter fun visit =>
          unreadable io visit.2 || passes io visit.2).length := by
  induction toArchive generalizing gone moved names world with
  | nil => simpa [archiveLoop, visits, movedBy] using held
  | cons b rest ih =>
    obtain ⟨isListed, isBackup⟩ := mem_backupsIn.mp (candidates.listed b (by simp))
    obtain ⟨original, inBefore, originalPath, named, -, -⟩ := mem_listFolder.mp isListed
    have clean := candidates.clean b (by simp)
    have fresh := candidates.fresh b (by simp)
    have found : world.tree.find? (objectPath src b.path) = some original := by
      rw [objectPath_of_clean clean]
      exact FileTree.find?_eq_some_iff.mpr
        ⟨(held.hot b.path isBackup fresh original originalPath).mpr inBefore, originalPath⟩
    have disjoint : passes io world = true → unreadable io world = false := by
      unfold passes unreadable
      cases io.fails world.calls <;> simp
    have copyPath : (archiveCopy io dst b.path world original).path = dst ++ "/" ++ b.path :=
      objectPath_of_clean clean
    have copyContent : (archiveCopy io dst b.path world original).content = original.content :=
      rfl
    unfold archiveLoop
    rw [visits]
    cases outcome : moveFile io src dst b.path world with
    | mk next error =>
    have steps := @moveFile_cases io src dst b.path world original named found
    rw [outcome] at steps
    rcases steps with ⟨failed, noError, same⟩ | ⟨readable, stopped, isError, trees⟩ |
      ⟨passed, noError, tree⟩
    · -- The download failed: nothing happens, and the candidate is counted.
      dsimp only at noError same
      rw [noError]
      have stays : passes io world = false := by
        by_contra passed
        rw [Bool.not_eq_false] at passed
        rw [disjoint passed] at failed
        exact absurd failed (by simp)
      have nextHeld : Relocated src dst before gone
          (moveCompanions io src dst b.path next).tree :=
        moveCompanions_relocated apart (same ▸ held) named clean
      obtain ⟨after, count⟩ := ih (moved + 1) (names ++ [b.path]) _ nextHeld
        candidates.tail
      simp only [movedBy, List.filter_cons, stays, failed, Bool.or_false, if_true] at after ⊢
      refine ⟨by simpa [movedBy] using after, ?_⟩
      rw [count]
      simp only [List.length_cons]
      omega
    · dsimp only at isError trees
      cases error with
      | none => exact absurd rfl isError
      | some error =>
        simp only [movedBy, List.filter_cons, stopped, readable, Bool.or_false,
          List.filter_nil, Bool.false_eq_true, if_false, List.map_nil, List.append_nil,
          List.length_nil, Nat.add_zero, and_true]
        rcases trees with same | uploaded
        · exact same ▸ held
        · rw [uploaded]
          exact held.put apart fresh copyPath
    · dsimp only at noError tree
      rw [noError]
      have leftHeld : Relocated src dst before (gone ++ [b.path]) next.tree := by
        rw [tree, objectPath_of_clean clean]
        exact held.leave apart isBackup fresh copyPath copyContent inBefore originalPath
      have nextHeld : Relocated src dst before (gone ++ [b.path])
          (moveCompanions io src dst b.path next).tree :=
        moveCompanions_relocated apart leftHeld named clean
      obtain ⟨after, count⟩ := ih (moved + 1) (names ++ [b.path]) _ nextHeld
        candidates.tail_gone
      simp only [movedBy, List.filter_cons, passed, Bool.or_true, if_true] at after ⊢
      refine ⟨by simpa [movedBy] using after, ?_⟩
      rw [count]
      simp only [List.length_cons]
      omega

end Loop

/-! ### Runs -/

/-- The candidates `runArchive` goes through. -/
def toArchive (sort : SliceSort newerFile) (io : StorageCalls) (cfg : ArchiveConfig) (now : Int)
    (world : World) : List Entry :=
  if io.fails world.calls then []
  else
    let sorted := sort.run (backupsIn world.tree cfg.src)
    sorted.drop (keepCount cfg now sorted)

def archiveVisits (sort : SliceSort newerFile) (io : StorageCalls) (cfg : ArchiveConfig)
    (now : Int) (world : World) : List (Entry × World) :=
  visits io cfg.src cfg.dst (toArchive sort io cfg now world) world.called

/-- No download of a candidate the run comes to fails. -/
def ReadsEvery (sort : SliceSort newerFile) (io : StorageCalls) (cfg : ArchiveConfig) (now : Int)
    (world : World) : Prop :=
  ∀ visit ∈ archiveVisits sort io cfg now world, unreadable io visit.2 = false

/-- An increment whose base is moved is moved as well. -/
def TakesIncrements (unmarshal : String → Option Sidecar) (sort : SliceSort newerFile)
    (io : StorageCalls) (cfg : ArchiveConfig) (now : Int) (world : World) : Prop :=
  ∀ visit ∈ archiveVisits sort io cfg now world, passes io visit.2 = true →
    ∀ b ∈ backupsIn world.tree cfg.src, BasedOn unmarshal world.tree cfg.src b.path visit.1.path →
      ∃ other ∈ archiveVisits sort io cfg now world, passes io other.2 = true ∧
        other.1.path = b.path

section Runs

variable (sort : SliceSort newerFile) (io : StorageCalls) (cfg : ArchiveConfig) (now : Int)
  (world : World)

theorem runArchive_eq :
    (runArchive sort io cfg now world).1 =
        (archiveLoop io cfg.src cfg.dst (toArchive sort io cfg now world) 0 [] world.called).1 ∧
      (runArchive sort io cfg now world).2.moved =
        (archiveLoop io cfg.src cfg.dst (toArchive sort io cfg now world) 0 []
          world.called).2.moved := by
  unfold runArchive toArchive World.list
  cases io.fails world.calls with
  | true => exact ⟨rfl, rfl⟩
  | false =>
    simp only [Bool.false_eq_true, if_false]
    rw [show (listFolder world.tree cfg.src).filter (fun e => archivable e.path) =
      backupsIn world.tree cfg.src from rfl]
    by_cases empty : (backupsIn world.tree cfg.src).length = 0
    · have sortedEmpty : sort.run (backupsIn world.tree cfg.src) = [] := by
        rw [← List.length_eq_zero_iff, (sort.perm _).length_eq]
        exact empty
      rw [if_pos empty, sortedEmpty, List.drop_nil]
      exact ⟨rfl, rfl⟩
    · rw [if_neg empty]
      split
      · rename_i few
        rw [List.drop_eq_nil_of_le few]
        exact ⟨rfl, rfl⟩
      · exact ⟨rfl, rfl⟩

variable {sort io cfg now world}

theorem toArchive_candidates (clean : CleanNames world.tree cfg.src) :
    Candidates cfg.src world.tree [] (toArchive sort io cfg now world) := by
  have subset : (toArchive sort io cfg now world).Sublist
      (sort.run (backupsIn world.tree cfg.src)) := by
    unfold toArchive
    split
    · exact List.nil_sublist _
    · exact List.drop_sublist _ _
  have listed : ∀ b ∈ toArchive sort io cfg now world, b ∈ backupsIn world.tree cfg.src :=
    fun b member => (sort.perm _).mem_iff.mp (subset.subset member)
  refine ⟨listed, ?_, by simp, ?_⟩
  · intro b member
    exact clean b (mem_backupsIn.mp (listed b member)).1
  · have distinct : ((sort.run (backupsIn world.tree cfg.src)).map Entry.path).Nodup :=
      ((sort.perm _).map Entry.path).nodup_iff.mpr (backupsIn_distinct _ _)
    exact distinct.sublist (subset.map Entry.path)

theorem runArchive_relocated (apart : DifferentLocations cfg.src cfg.dst)
    (clean : CleanNames world.tree cfg.src) :
    Relocated cfg.src cfg.dst world.tree (movedBy io (archiveVisits sort io cfg now world))
        (runArchive sort io cfg now world).1.tree ∧
      (runArchive sort io cfg now world).2.moved =
        ((archiveVisits sort io cfg now world).filter fun visit =>
          unreadable io visit.2 || passes io visit.2).length := by
  obtain ⟨sameWorld, sameMoved⟩ := runArchive_eq sort io cfg now world
  obtain ⟨held, count⟩ := @archiveLoop_relocated io cfg.src cfg.dst world.tree [] apart
    (toArchive sort io cfg now world) 0 [] world.called (Relocated.refl cfg.src cfg.dst world.tree)
    (toArchive_candidates clean)
  rw [sameWorld, sameMoved, count, Nat.zero_add]
  exact ⟨held, rfl⟩

variable {gone : List String}

theorem mem_leftHot_iff {src dst : String} {before after : FileTree}
    (held : Relocated src dst before gone after) {e : Entry} (listed : e ∈ backupsIn before src) :
    e ∈ leftHot before after src ↔ e.path ∈ gone := by
  obtain ⟨isListed, isBackup⟩ := mem_backupsIn.mp listed
  obtain ⟨f, inBefore, fPath, -, -, -⟩ := mem_listFolder.mp isListed
  unfold leftHot
  rw [List.mem_filter, Option.isNone_iff_eq_none]
  constructor
  · rintro ⟨-, absent⟩
    by_contra stays
    have inAfter := (held.hot e.path isBackup stays f fPath).mpr inBefore
    rw [FileTree.find?_eq_some_iff.mpr ⟨inAfter, fPath⟩] at absent
    exact absurd absent (by simp)
  · intro isGone
    refine ⟨listed, ?_⟩
    cases found : after.find? (src ++ "/" ++ e.path) with
    | none => rfl
    | some g =>
      obtain ⟨inAfter, gPath⟩ := FileTree.find?_eq_some_iff.mp found
      exact absurd gPath (held.left e.path isGone g inAfter)

theorem mem_backupsIn_after_iff {src dst : String} {before after : FileTree}
    (held : Relocated src dst before gone after) {e : Entry} :
    e ∈ backupsIn after src ↔ e ∈ backupsIn before src ∧ e.path ∉ gone := by
  rw [mem_backupsIn, mem_backupsIn, mem_listFolder, mem_listFolder]
  constructor
  · rintro ⟨⟨f, inAfter, fPath, rest⟩, isBackup⟩
    have stays : e.path ∉ gone := fun isGone => held.left e.path isGone f inAfter fPath
    exact ⟨⟨⟨f, (held.hot e.path isBackup stays f fPath).mp inAfter, fPath, rest⟩, isBackup⟩, stays⟩
  · rintro ⟨⟨⟨f, inBefore, fPath, rest⟩, isBackup⟩, stays⟩
    exact ⟨⟨f, (held.hot e.path isBackup stays f fPath).mpr inBefore, fPath, rest⟩, isBackup⟩

theorem length_leftHot {src dst : String} {before after : FileTree}
    (held : Relocated src dst before gone after) (distinct : gone.Nodup)
    (listed : ∀ path ∈ gone, ∃ e ∈ backupsIn before src, e.path = path) :
    (leftHot before after src).length = gone.length := by
  have leftDistinct : ((leftHot before after src).map Entry.path).Nodup :=
    (backupsIn_distinct before src).sublist (List.filter_sublist.map Entry.path)
  have same : ((leftHot before after src).map Entry.path).Perm gone := by
    rw [List.perm_ext_iff_of_nodup leftDistinct distinct]
    intro path
    rw [List.mem_map]
    constructor
    · rintro ⟨e, left, rfl⟩
      exact (mem_leftHot_iff held (List.mem_filter.mp left).1).mp left
    · intro isGone
      obtain ⟨e, isListed, rfl⟩ := listed path isGone
      exact ⟨e, (mem_leftHot_iff held isListed).mpr isGone, rfl⟩
  rw [← same.length_eq, List.length_map]

theorem movedBy_listed (clean : CleanNames world.tree cfg.src) {path : String}
    (moved : path ∈ movedBy io (archiveVisits sort io cfg now world)) :
    ∃ e ∈ backupsIn world.tree cfg.src, e.path = path := by
  have candidate := (movedBy_sublist io cfg.src cfg.dst _ world.called).subset moved
  obtain ⟨e, member, rfl⟩ := List.mem_map.mp candidate
  exact ⟨e, (toArchive_candidates clean).listed e member, rfl⟩

theorem mem_movedBy {visited : List (Entry × World)} {path : String} :
    path ∈ movedBy io visited ↔ ∃ visit ∈ visited, passes io visit.2 = true ∧
      visit.1.path = path := by
  unfold movedBy
  simp [and_assoc]

/-- The count is right exactly if every visited candidate could be read. -/
theorem length_filter_visits_iff (visited : List (Entry × World)) :
    (visited.filter fun visit => unreadable io visit.2 || passes io visit.2).length =
        (movedBy io visited).length ↔ ∀ visit ∈ visited, unreadable io visit.2 = false := by
  have refined : visited.filter (fun visit => passes io visit.2) =
      (visited.filter fun visit => unreadable io visit.2 || passes io visit.2).filter
        fun visit => passes io visit.2 := by
    rw [List.filter_filter]
    congr 1
    funext visit
    cases passes io visit.2 <;> simp
  unfold movedBy
  rw [List.length_map, refined, eq_comm, List.length_filter_eq_length_iff]
  constructor
  · intro allPass visit member
    by_contra failed
    rw [Bool.not_eq_false] at failed
    have passed := allPass visit (List.mem_filter.mpr ⟨member, by simp [failed]⟩)
    unfold passes unreadable at *
    simp [failed] at passed
  · intro readable visit member
    obtain ⟨isVisit, counted⟩ := List.mem_filter.mp member
    rw [readable visit isVisit, Bool.false_or] at counted
    exact counted

end Runs

theorem runArchive_sound_iff (unmarshal : String → Option Sidecar) (sort : SliceSort newerFile)
    (io : StorageCalls) (cfg : ArchiveConfig) (now : Int) (world : World)
    (apart : DifferentLocations cfg.src cfg.dst) (clean : CleanNames world.tree cfg.src) :
    ArchiveSound unmarshal cfg.src cfg.dst world.tree (runArchive sort io cfg now world).1.tree
        (runArchive sort io cfg now world).2.moved ↔
      ReadsEvery sort io cfg now world ∧ TakesIncrements unmarshal sort io cfg now world := by
  obtain ⟨held, count⟩ := @runArchive_relocated sort io cfg now world apart clean
  have distinct : (movedBy io (archiveVisits sort io cfg now world)).Nodup :=
    (toArchive_candidates clean).distinct.sublist (movedBy_sublist ..)
  have leftLength := length_leftHot held distinct fun path => movedBy_listed clean
  constructor
  · intro sound
    constructor
    · have counted := sound.counted
      rw [count, leftLength] at counted
      exact (length_filter_visits_iff _).mp counted
    · intro visit isVisit passed b listed basedOn
      apply mem_movedBy.mp
      by_contra stays
      have moved := mem_movedBy.mpr ⟨visit, isVisit, passed, rfl⟩
      obtain ⟨base, baseListed, basePath⟩ := movedBy_listed clean moved
      have baseLeft := (mem_leftHot_iff held baseListed).mpr (basePath ▸ moved)
      have remains := (mem_backupsIn_after_iff held).mpr ⟨listed, stays⟩
      exact sound.whole b remains base baseLeft (basePath ▸ basedOn)
  · rintro ⟨readsEvery, takesIncrements⟩
    refine ⟨?_, ?_, ?_⟩
    · intro e listed f inBefore fPath
      by_cases isGone : e.path ∈ movedBy io (archiveVisits sort io cfg now world)
      · obtain ⟨g, inAfter, gPath, content⟩ := held.archived e.path isGone f inBefore fPath
        exact ⟨g, inAfter, content, .inr gPath⟩
      · have kept := (held.hot e.path (mem_backupsIn.mp listed).2 isGone f fPath).mpr inBefore
        exact ⟨f, kept, rfl, .inl fPath⟩
    · rw [count, leftLength]
      exact (length_filter_visits_iff _).mpr readsEvery
    · intro b remains base baseLeft basedOn
      obtain ⟨listed, stays⟩ := (mem_backupsIn_after_iff held).mp remains
      have baseListed := (List.mem_filter.mp baseLeft).1
      have moved := (mem_leftHot_iff held baseListed).mp baseLeft
      obtain ⟨visit, isVisit, passed, visitPath⟩ := mem_movedBy.mp moved
      apply stays
      exact mem_movedBy.mpr
        (takesIncrements visit isVisit passed b listed (visitPath ▸ basedOn))

def offsite : ArchiveConfig where
  last := 1
  src := "/backup/hot"
  dst := "/mnt/archive"

theorem offsite_differentLocations : DifferentLocations offsite.src offsite.dst := by
  intro path other same
  have chars := congrArg String.toList same
  simp [offsite] at chars

theorem runArchive_sound_offsite :
    ArchiveSound (fun _ => none) offsite.src offsite.dst twoBackups.tree
      (runArchive (insertionSliceSort newerFile newerFile_keyOrder) quietCalls offsite 2000
        twoBackups).1.tree
      (runArchive (insertionSliceSort newerFile newerFile_keyOrder) quietCalls offsite 2000
        twoBackups).2.moved := by
  apply (runArchive_sound_iff _ _ quietCalls offsite 2000 twoBackups offsite_differentLocations
    (by unfold CleanNames; decide +kernel)).mpr
  constructor
  · intro visit _
    rfl
  · intro visit _ _ b _ basedOn
    obtain ⟨sc, read, -⟩ := basedOn
    simp [folderStore] at read

/-- Only the second call, the download of the first candidate, fails. -/
def oneBadRead : StorageCalls where
  fails n := n = 1
  clock n := 1000 + n

/-- The backup that cannot be read stays where it is and is counted. -/
theorem runArchive_counts_unread :
    (runArchive (insertionSliceSort newerFile newerFile_keyOrder) oneBadRead offsite 2000
        twoBackups).2 = ⟨1, ["mysql-app-db-full-20240101-000000.sql"], none⟩ ∧
      ¬ ArchiveSound (fun _ => none) offsite.src offsite.dst twoBackups.tree
        (runArchive (insertionSliceSort newerFile newerFile_keyOrder) oneBadRead offsite 2000
          twoBackups).1.tree
        (runArchive (insertionSliceSort newerFile newerFile_keyOrder) oneBadRead offsite 2000
          twoBackups).2.moved := by
  have ⟨result, nothingLeft⟩ : (runArchive (insertionSliceSort newerFile newerFile_keyOrder)
        oneBadRead offsite 2000 twoBackups).2 =
          ⟨1, ["mysql-app-db-full-20240101-000000.sql"], none⟩ ∧
      (leftHot twoBackups.tree (runArchive (insertionSliceSort newerFile newerFile_keyOrder)
        oneBadRead offsite 2000 twoBackups).1.tree offsite.src).length = 0 := by
    decide +kernel
  refine ⟨result, ?_⟩
  intro sound
  have counted := sound.counted
  rw [result, nothingLeft] at counted
  exact absurd counted (by decide)

end DbBackup.Retention
