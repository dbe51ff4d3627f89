import DbBackup.Runner.Chain

/-!
Owns histories of runs of one job: each run reads the listing, plans its
backup, and stores the backup with its sidecar. The state also keeps the
strategies of the backups taken so far.

Contract: a chain stays within `full_every` in every history in which each
increment gets a free name that keeps the prefix of its identity
(`IncrementNameFree`). Only then does the next run count it.
-/

set_option linter.all false

namespace DbBackup.Runner.Chain

open Lib.GoString Lib.Run Lib.Sorting Lib.Time Pipeline Storage

/-- The order in which a backend lists what it stores. -/
structure Listing where
  run : List Entry → List Entry
  perm : ∀ entries, (run entries).Perm entries

structure JobStorage where
  entries : List Entry
  sidecars : String → Option Sidecar
  /-- The strategies of the backups taken, oldest first. -/
  history : List Strategy := []

/-- One run: its clock, the times the storage gives to the two files, and the
position the engine reports. -/
structure RunEvent where
  now : Instant
  modTime : Int
  sidecarTime : Int
  position : String

/-- `Upload`: an object replaces the object of the same path. -/
def put (entries : List Entry) (entry : Entry) : List Entry :=
  entries.filter (fun old => old.path ≠ entry.path) ++ [entry]

def store (storage : JobStorage) (event : RunEvent) (plan : Plan) : JobStorage where
  entries := put (put storage.entries { path := plan.filename, modTime := event.modTime })
    { path := sidecarName plan.filename, modTime := event.sidecarTime }
  sidecars := Function.update storage.sidecars plan.filename
    (some { strategy := plan.strategy.text, base := plan.base, position := event.position })
  history := storage.history ++ [plan.strategy]

section

variable (libs : Libraries) (listing : Listing) (job : Job)

/-- A run with licence and engine support; a refused run stores nothing. -/
def takeBackup (storage : JobStorage) (event : RunEvent) : JobStorage :=
  match planRun libs job {} (some (listing.run storage.entries)) storage.sidecars event.now with
  | .error _ => storage
  | .ok plan => store storage event plan

/-- The storage dates the new backup after all backups of the identity. -/
def DatedLater (storage : JobStorage) (event : RunEvent) : Prop :=
  ∀ entry ∈ candidates storage.entries (backupPrefix job.id), entry.modTime < event.modTime

/-- The name of an increment is free, or its tokens hold no dot and one of the
names `UniqueBackupName` tries is free. -/
def IncrementNameFree (storage : JobStorage) (event : RunEvent) : Prop :=
  let name := defaultName job job.strategy event.now
  taken storage.entries name = true →
    '.' ∉ (backupPrefix job.id).toList ∧
      ∃ n ∈ List.range' 2 998, isBackupFile (renamed name n) = true ∧
        taken storage.entries (renamed name n) = false

instance (storage : JobStorage) (event : RunEvent) : Decidable (DatedLater job storage event) :=
  inferInstanceAs (Decidable (∀ entry ∈ candidates storage.entries (backupPrefix job.id),
    entry.modTime < event.modTime))

instance (storage : JobStorage) (event : RunEvent) :
    Decidable (IncrementNameFree job storage event) :=
  inferInstanceAs (Decidable (
    taken storage.entries (defaultName job job.strategy event.now) = true →
      '.' ∉ (backupPrefix job.id).toList ∧
        ∃ n ∈ List.range' 2 998,
          isBackupFile (renamed (defaultName job job.strategy event.now) n) = true ∧
          taken storage.entries (renamed (defaultName job job.strategy event.now) n) = false))

end

/-- The first backup is full, and no more than `n` backups in a row are not. -/
structure ChainBounded (n : Nat) (history : List Strategy) : Prop where
  startsFull : ∀ first, history.head? = some first → first = .full
  atMost : ∀ before block after, history = before ++ block ++ after →
    (∀ strat ∈ block, strat ≠ .full) → block.length ≤ n

/-! ### Histories -/

/-- The backups since the last full one. -/
def openRun (history : List Strategy) : Nat :=
  (history.reverse.takeWhile (· ≠ .full)).length

theorem openRun_append_full (history : List Strategy) : openRun (history ++ [.full]) = 0 := by
  simp [openRun]

theorem openRun_append_increment (history : List Strategy) {strat : Strategy}
    (notFull : strat ≠ .full) : openRun (history ++ [strat]) = openRun history + 1 := by
  simp [openRun, notFull]

theorem length_le_openRun (before block : List Strategy) (increments : ∀ strat ∈ block, strat ≠ .full) :
    block.length ≤ openRun (before ++ block) := by
  unfold openRun
  rw [List.reverse_append, List.takeWhile_append_of_pos]
  · simp
  · intro strat member
    simpa using increments strat (List.mem_reverse.mp member)

theorem ChainBounded.append {n : Nat} {history : List Strategy} {strat : Strategy}
    (bounded : ChainBounded n history) (starts : history = [] → strat = .full)
    (newRun : openRun (history ++ [strat]) ≤ n) : ChainBounded n (history ++ [strat]) where
  startsFull first isFirst := by
    cases history with
    | nil =>
      rw [← Option.some.inj isFirst]
      exact starts rfl
    | cons oldest rest => exact bounded.startsFull first isFirst
  atMost before block after shape increments := by
    rcases List.eq_nil_or_concat after with isNil | ⟨init, last, isConcat⟩
    · have whole : history ++ [strat] = before ++ block := by simpa [isNil] using shape
      have := length_le_openRun before block increments
      rw [← whole] at this
      omega
    · rw [isConcat, List.concat_eq_append, ← List.append_assoc] at shape
      have inner := (List.append_inj' shape rfl).1
      exact bounded.atMost before block init inner increments

/-! ### What the next run counts -/

/-- An increment that is newer than every full backup. -/
def isOpen (entries : List Entry) (sidecars : String → Option Sidecar) (entry : Entry) : Bool :=
  isIncrement sidecars entry &&
    entries.all fun other => !isFull sidecars other || decide (other.modTime < entry.modTime)

variable {entries : List Entry} {entry : Entry}

theorem isOpen_iff {sidecars : String → Option Sidecar} : isOpen entries sidecars entry = true ↔
      isIncrement sidecars entry = true ∧
        ∀ other ∈ entries, isFull sidecars other = true → other.modTime < entry.modTime := by
  unfold isOpen
  simp only [Bool.and_eq_true, List.all_eq_true, Bool.or_eq_true, Bool.not_eq_true',
    decide_eq_true_eq]
  refine and_congr_right fun _ => forall₂_congr fun other _ => ?_
  cases isFull sidecars other <;> simp

def openCount (entries : List Entry) (sidecars : String → Option Sidecar) : Nat :=
  entries.countP (isOpen entries sidecars)

theorem openCount_perm {entries listed : List Entry} (perm : listed.Perm entries)
    (sidecars : String → Option Sidecar) : openCount listed sidecars = openCount entries sidecars := by
  have same : isOpen listed sidecars = isOpen entries sidecars := by
    funext entry
    unfold isOpen
    rw [perm.all_eq]
  unfold openCount
  rw [same]
  exact perm.countP_eq _

/-- In the sorted order no open increment comes after the first full backup. -/
theorem not_isOpen_of_mem_dropWhile (sort : SliceSort newerFirst)
    {sidecars : String → Option Sidecar}
    (member : entry ∈ (sort.run entries).dropWhile fun entry => !isFull sidecars entry) :
    isOpen entries sidecars entry = false := by
  by_contra notFalse
  rw [Bool.not_eq_false, isOpen_iff] at notFalse
  have sublist := List.dropWhile_sublist (l := sort.run entries) fun entry => !isFull sidecars entry
  have stops := List.head?_dropWhile_not (fun entry => !isFull sidecars entry) (sort.run entries)
  cases dropped : (sort.run entries).dropWhile (fun entry => !isFull sidecars entry) with
  | nil => simp [dropped] at member
  | cons first rest =>
    rw [dropped] at stops member sublist
    have firstFull : isFull sidecars first = true := by simpa using stops
    have firstMember : first ∈ entries := sort.mem_run.mp (sublist.subset (by simp))
    have newer := notFalse.2 first firstMember firstFull
    rcases List.mem_cons.mp member with same | inRest
    · rw [same] at newer
      omega
    · have notNewer := List.rel_of_pairwise_cons ((sort.sorted entries).sublist sublist) inRest
      simp only [newerFirst, decide_eq_false_iff_not] at notNewer
      omega

/-- The loop of `chainInfo` counts every open increment. -/
theorem openCount_le_depth (sort : SliceSort newerFirst) (entries : List Entry)
    (sidecars : String → Option Sidecar) :
    openCount entries sidecars ≤ (scanChain sidecars (sort.run entries) {}).depth := by
  have noneAfter : ((sort.run entries).dropWhile fun entry => !isFull sidecars entry).countP
      (isOpen entries sidecars) = 0 := by
    rw [List.countP_eq_zero]
    intro entry member
    simp [not_isOpen_of_mem_dropWhile sort member]
  have openBefore : ((sort.run entries).takeWhile fun entry => !isFull sidecars entry).countP
        (isOpen entries sidecars) ≤
      ((sort.run entries).takeWhile fun entry => !isFull sidecars entry).countP
        (isIncrement sidecars) := by
    apply List.countP_mono_left
    intro entry _ isOpen
    exact (isOpen_iff.mp isOpen).1
  calc openCount entries sidecars
      = (sort.run entries).countP (isOpen entries sidecars) :=
        ((sort.perm entries).countP_eq _).symm
    _ = ((sort.run entries).takeWhile fun entry => !isFull sidecars entry).countP
          (isOpen entries sidecars) := by
        conv_lhs => rw [← List.takeWhile_append_dropWhile
          (p := fun entry => !isFull sidecars entry) (l := sort.run entries)]
        rw [List.countP_append, noneAfter, Nat.add_zero]
    _ ≤ ((sort.run entries).takeWhile fun entry => !isFull sidecars entry).countP
          (isIncrement sidecars) := openBefore
    _ = (scanChain sidecars (sort.run entries) {}).depth := by
        rw [scanChain_depth, List.countP_eq_length_filter]
        simp

/-! ### What a run stores -/

theorem candidates_perm {entries listed : List Entry} (perm : listed.Perm entries) (start : String) :
    (candidates listed start).Perm (candidates entries start) :=
  perm.filter _

theorem taken_perm {entries listed : List Entry} (perm : listed.Perm entries) :
    taken listed = taken entries := by
  funext name
  exact perm.any_eq

theorem hasSuffix_json_getLast? {text : String} (isJson : hasSuffix text ".json" = true) :
    text.toList.getLast? = some 'n' := by
  obtain ⟨start, rfl⟩ := (hasSuffix_iff _ _).mp isJson
  simp

theorem nameEnding_dotted (job : Job) : ∃ word, (nameEnding job).toList = '.' :: word := by
  have dotted : ∀ ext ∈ [".couch", ".influx", ".mongo", ".redis", ".sql"],
      ext.toList.head? = some '.' := by decide
  have first := dotted _ (formatExtension_mem job.type)
  unfold nameEnding
  rw [String.toList_append, String.toList_append]
  cases chars : (formatExtension job.type).toList with
  | nil => simp [chars] at first
  | cons head tail =>
    rw [chars] at first
    exact ⟨_, by rw [Option.some.inj first]; rfl⟩

theorem getLast?_append_ne {a b : List Char} {c : Char} (aLast : a.getLast? ≠ some c)
    (bLast : b.getLast? ≠ some c) : (a ++ b).getLast? ≠ some c := by
  rw [List.getLast?_append]
  cases last : b.getLast? with
  | none => simpa using aLast
  | some found => simpa [last] using bLast

theorem nameEnding_not_json (job : Job) : (nameEnding job).toList.getLast? ≠ some 'n' := by
  have format : ∀ ext ∈ [".couch", ".influx", ".mongo", ".redis", ".sql"],
      ext.toList.getLast? ≠ some 'n' := by decide
  have compression : job.compression.extension.toList.getLast? ≠ some 'n' := by
    cases job.compression <;> decide
  have encryption : (if job.encryption = .none then "" else job.encryption.extension).toList.getLast?
      ≠ some 'n' := by
    cases job.encryption <;> decide
  unfold nameEnding
  rw [String.toList_append, String.toList_append]
  exact getLast?_append_ne
    (getLast?_append_ne (format _ (formatExtension_mem job.type)) compression) encryption

theorem chosenName_not_json (job : Job) (entries : List Entry) (strat : Strategy) (now : Instant) :
    hasSuffix (chosenName job (some entries) strat now) ".json" = false := by
  by_contra isJson
  rw [Bool.not_eq_false] at isJson
  have last := hasSuffix_json_getLast? isJson
  unfold chosenName at last
  dsimp only at last
  rw [defaultName_eq] at last
  obtain ⟨newStem, shape⟩ :=
    uniqueBackupName_append _ _ (taken entries) (nameEnding_dotted job)
  obtain ⟨word, dotted⟩ := nameEnding_dotted job
  rw [shape, String.toList_append, List.getLast?_append_of_ne_nil _ (by simp [dotted])] at last
  exact nameEnding_not_json job last

variable {job : Job} {storage : JobStorage} {event : RunEvent}

/-- A free increment name keeps the prefix of its identity. -/
theorem chosenName_of_free
    (free : IncrementNameFree job storage event) (tokens : ¬ NoTokens job.id) :
    hasPrefix (chosenName job (some storage.entries) job.strategy event.now)
        (backupPrefix job.id) = true ∧
      taken storage.entries (chosenName job (some storage.entries) job.strategy event.now) =
        false := by
  have keeps : ∀ rest, hasPrefix (backupPrefix job.id ++ rest) (backupPrefix job.id) = true := by
    intro rest
    simp [hasPrefix]
  have shape : ∃ rest, defaultName job job.strategy event.now = backupPrefix job.id ++ rest := by
    rw [defaultName_eq, expandFilename_eq tokens, String.append_assoc]
    exact ⟨_, rfl⟩
  obtain ⟨rest, isName⟩ := shape
  unfold chosenName
  dsimp only
  by_cases isTaken : taken storage.entries (defaultName job job.strategy event.now) = true
  · obtain ⟨noDot, n, inRange, isBackup, isFree⟩ := free isTaken
    unfold uniqueBackupName
    rw [if_pos isTaken]
    cases search : (List.range' 2 998).find? (fun n =>
        isBackupFile (renamed (defaultName job job.strategy event.now) n) &&
          !taken storage.entries (renamed (defaultName job job.strategy event.now) n)) with
    | none =>
      have rejected := List.find?_eq_none.mp search n inRange
      simp [isBackup, isFree] at rejected
    | some k =>
      have accepted := List.find?_some search
      simp only [Bool.and_eq_true, Bool.not_eq_true'] at accepted
      obtain ⟨newRest, newShape⟩ := renamed_start (backupPrefix job.id) rest k noDot
      refine ⟨?_, accepted.2⟩
      show hasPrefix (renamed (defaultName job job.strategy event.now) k) _ = true
      rw [isName, newShape]
      exact keeps newRest
  · rw [Bool.not_eq_true] at isTaken
    unfold uniqueBackupName
    rw [if_neg (by simp [isTaken])]
    refine ⟨?_, isTaken⟩
    rw [isName]
    exact keeps rest

theorem candidates_put_json {start : String} (isJson : hasSuffix entry.path ".json" = true) :
    candidates (put entries entry) start = candidates entries start := by
  unfold candidates put
  rw [List.filter_append, List.filter_filter]
  have dropsNew : [entry].filter (fun entry =>
      hasPrefix entry.path start && !hasSuffix entry.path ".json") = [] := by
    simp [isJson]
  rw [dropsNew, List.append_nil]
  apply List.filter_congr
  intro old _
  by_cases same : old.path = entry.path
  · simp [same, isJson]
  · simp [same]

theorem candidates_put_new {entries : List Entry} {start : String} {entry : Entry}
    (absent : ∀ old ∈ entries, old.path ≠ entry.path) (begins : hasPrefix entry.path start = true)
    (notJson : hasSuffix entry.path ".json" = false) :
    candidates (put entries entry) start = candidates entries start ++ [entry] := by
  unfold candidates put
  have kept : entries.filter (fun old => old.path ≠ entry.path) = entries := by
    rw [List.filter_eq_self]
    simpa using absent
  rw [kept, List.filter_append]
  simp [begins, notJson]

/-! ### One run -/

theorem configuredStrategy_cases {support : Support} {strat : Strategy}
    (configured : configuredStrategy job support = .ok strat) :
    strat = .full ∨ strat = job.strategy := by
  unfold configuredStrategy at configured
  by_cases globals : job.dbName = "__globals__"
  · simp only [globals, if_true, ne_eq, not_true_eq_false, false_and, if_false,
      Except.ok.injEq] at configured
    exact .inl configured.symm
  · simp only [globals, if_false] at configured
    split at configured
    · simp at configured
    · split at configured
      · split at configured
        · exact .inl (Except.ok.inj configured).symm
        · split at configured
          · simp at configured
          · split at configured
            · exact .inl (Except.ok.inj configured).symm
            · exact .inr (Except.ok.inj configured).symm
      · exact .inr (Except.ok.inj configured).symm

variable {libs : Libraries} {plan : Plan}

/-- A planned backup is full, or it follows the configured strategy in a chain
that needs no reset. -/
theorem planRun_cases {support : Support}
    {listed : Option (List Entry)} {readSidecar : String → Option Sidecar} {now : Instant}
    (planned : planRun libs job support listed readSidecar now = .ok plan) :
    plan.filename = chosenName job listed plan.strategy now ∧
      (plan.strategy = .full ∨ plan.strategy ≠ .full ∧ plan.strategy = job.strategy ∧
        shouldResetChain libs.parseDuration job.backup
          (chainInfo libs.chainSort listed readSidecar job.id) now.nanos = none) := by
  unfold planRun at planned
  cases configured : configuredStrategy job support with
  | error failure =>
    rw [configured] at planned
    exact absurd planned (by simp [bind, Except.bind])
  | ok strat =>
    rw [configured] at planned
    have isPlan := Except.ok.inj planned
    subst isPlan
    refine ⟨rfl, ?_⟩
    dsimp only
    split
    · exact .inl rfl
    · unfold chainStrategy
      split
      · exact .inl rfl
      · next notFull =>
          split
          · exact .inl rfl
          · next noReason =>
              have follows := (configuredStrategy_cases configured).resolve_left notFull
              exact .inr ⟨notFull, follows, by simpa using noReason⟩

theorem depth_lt_of_no_reset {chain : BackupChain} {now : Int}
    {n : Nat} (every : job.backup.fullEvery = n) (positive : 0 < n)
    (noReset : shouldResetChain libs.parseDuration job.backup chain now = none) :
    chain.lastFull ≠ 0 ∧ chain.depth < n := by
  unfold shouldResetChain at noReset
  rw [every] at noReset
  split at noReset
  · simp at noReset
  · next hasFull =>
      split at noReset
      · simp at noReset
      · next shallow => exact ⟨hasFull, by omega⟩

/-! ### Histories within the bound -/

/-- What every run leaves behind: the bound itself, and that the next run will
count the increments since the last full backup. -/
structure WithinBound (job : Job) (n : Nat) (storage : JobStorage) : Prop where
  bounded : ChainBounded n storage.history
  counted : openRun storage.history ≤
    openCount (candidates storage.entries (backupPrefix job.id)) storage.sidecars
  fresh : storage.history = [] → candidates storage.entries (backupPrefix job.id) = []
  untracked : NoTokens job.id → candidates storage.entries (backupPrefix job.id) = []

theorem candidates_store_of_noTokens (tokens : NoTokens job.id)
    (named : plan.filename = chosenName job (some entries) plan.strategy event.now)
    (before : candidates storage.entries (backupPrefix job.id) = []) :
    candidates (store storage event plan).entries (backupPrefix job.id) = [] := by
  unfold store
  dsimp only
  rw [candidates_put_json (by simp [sidecarName]), backupPrefix_of_noTokens tokens] at *
  have head : plan.filename.toList.head? = (strategyToken plan.strategy).toList.head? := by
    rw [named]
    unfold chosenName
    dsimp only
    rw [uniqueBackupName_head?, defaultName_eq, expandFilename_of_noTokens tokens]
    cases plan.strategy <;> simp [strategyToken]
  have noDash : hasPrefix plan.filename "-" = false := by
    by_contra begins
    rw [Bool.not_eq_false] at begins
    unfold hasPrefix at begins
    obtain ⟨rest, shape⟩ := List.isPrefixOf_iff_prefix.mp begins
    rw [← shape] at head
    revert head
    cases plan.strategy <;> simp [strategyToken]
  unfold candidates put
  unfold candidates at before
  rw [List.filter_append, List.filter_filter]
  simp only [noDash, List.filter_cons, List.filter_nil, Bool.false_and, Bool.false_eq_true,
    if_false, List.append_nil]
  rw [List.filter_eq_nil_iff] at before ⊢
  intro old member
  have rejected := before old member
  simp_all

theorem candidates_store {start : String}
    (absent : ∀ old ∈ storage.entries, old.path ≠ plan.filename)
    (begins : hasPrefix plan.filename start = true)
    (notJson : hasSuffix plan.filename ".json" = false) :
    candidates (store storage event plan).entries start =
      candidates storage.entries start ++
        [{ path := plan.filename, modTime := event.modTime }] := by
  have added := @candidates_put_new storage.entries start
    { path := plan.filename, modTime := event.modTime } absent begins notJson
  rw [← added]
  exact candidates_put_json (by simp [sidecarName])

/-- Storing an increment under a free name adds one to what the next run
counts. -/
theorem openCount_store (later : DatedLater job storage event) (notFull : plan.strategy ≠ .full)
    (begins : hasPrefix plan.filename (backupPrefix job.id) = true)
    (notJson : hasSuffix plan.filename ".json" = false)
    (free : taken storage.entries plan.filename = false) :
    openCount (candidates storage.entries (backupPrefix job.id)) storage.sidecars + 1 ≤
      openCount (candidates (store storage event plan).entries (backupPrefix job.id))
        (store storage event plan).sidecars := by
  have absent : ∀ old ∈ storage.entries, old.path ≠ plan.filename := by
    intro old member
    unfold taken at free
    rw [List.any_eq_false] at free
    have := free old member
    simp_all
  rw [candidates_store absent begins notJson]
  unfold store
  dsimp only
  generalize listed : candidates storage.entries (backupPrefix job.id) = before at *
  have unchanged : ∀ old ∈ before, ∀ sidecar,
      Function.update storage.sidecars plan.filename (some sidecar) old.path =
        storage.sidecars old.path := by
    intro old member sidecar
    rw [← listed] at member
    exact Function.update_of_ne (absent old (List.mem_of_mem_filter member)) _ _
  have notFullText : plan.strategy.text ≠ "full" := by
    revert notFull
    cases plan.strategy <;> decide
  unfold openCount
  rw [List.countP_append]
  apply Nat.add_le_add
  · apply List.countP_mono_left
    intro old member isOpenBefore
    rw [isOpen_iff] at isOpenBefore ⊢
    refine ⟨?_, ?_⟩
    · simpa [isIncrement, unchanged old member] using isOpenBefore.1
    · intro other otherMember otherFull
      rcases List.mem_append.mp otherMember with isOld | isNew
      · apply isOpenBefore.2 other isOld
        simpa [isFull, unchanged other isOld] using otherFull
      · rw [List.mem_singleton] at isNew
        simp [isFull, isNew, notFullText] at otherFull
  · rw [List.countP_singleton, if_pos]
    rw [isOpen_iff]
    refine ⟨by simp [isIncrement, notFullText], ?_⟩
    intro other otherMember otherFull
    rcases List.mem_append.mp otherMember with isOld | isNew
    · apply later other
      rw [listed]
      exact isOld
    · rw [List.mem_singleton] at isNew
      simp [isFull, isNew, notFullText] at otherFull

theorem store_full_withinBound {n : Nat}  (within : WithinBound job n storage)
    (named : plan.filename = chosenName job (some entries) plan.strategy event.now)
    (full : plan.strategy = .full) : WithinBound job n (store storage event plan) := by
  have noneOpen : openRun (storage.history ++ [plan.strategy]) = 0 := by
    rw [full, openRun_append_full]
  refine ⟨?_, ?_, ?_, ?_⟩
  · apply within.bounded.append
    · intro _
      exact full
    · omega
  · rw [show (store storage event plan).history = storage.history ++ [plan.strategy] from rfl,
      noneOpen]
    exact Nat.zero_le _
  · simp [store]
  · intro tokens
    exact candidates_store_of_noTokens tokens named (within.untracked tokens)

/-- An increment in a chain that needs no reset: fewer than `n` increments are
open, the next run counts them all, and it will count this one too. -/
theorem store_increment_withinBound {listing : Listing} {n : Nat}  (positive : 0 < n)
    (every : job.backup.fullEvery = n) (within : WithinBound job n storage)
    (later : DatedLater job storage event) (nameFree : IncrementNameFree job storage event)
    (named : plan.filename =
      chosenName job (some (listing.run storage.entries)) plan.strategy event.now)
    (notFull : plan.strategy ≠ .full) (follows : plan.strategy = job.strategy)
    (noReset : shouldResetChain libs.parseDuration job.backup
      (chainInfo libs.chainSort (some (listing.run storage.entries)) storage.sidecars job.id)
      event.now.nanos = none) :
    WithinBound job n (store storage event plan) := by
  have listed := candidates_perm (listing.perm storage.entries) (backupPrefix job.id)
  obtain ⟨hasFull, shallow⟩ := depth_lt_of_no_reset every positive noReset
  -- without a candidate there would be no last full backup
  have present : candidates storage.entries (backupPrefix job.id) ≠ [] := by
    intro empty
    rw [empty] at listed
    apply hasFull
    have nothing := (libs.chainSort.perm []).eq_nil
    simp [chainInfo, listed.eq_nil, nothing, scanChain]
  have tokens : ¬ NoTokens job.id := fun noTokens => present (within.untracked noTokens)
  have fewOpen : openCount (candidates storage.entries (backupPrefix job.id))
      storage.sidecars < n := by
    have counted := openCount_le_depth libs.chainSort
      (candidates (listing.run storage.entries) (backupPrefix job.id)) storage.sidecars
    rw [openCount_perm listed] at counted
    exact Nat.lt_of_le_of_lt counted shallow
  have sameChoice : chosenName job (some (listing.run storage.entries)) plan.strategy event.now =
      chosenName job (some storage.entries) job.strategy event.now := by
    unfold chosenName
    dsimp only
    rw [follows, taken_perm (listing.perm storage.entries)]
  rw [sameChoice] at named
  obtain ⟨begins, free⟩ := chosenName_of_free nameFree tokens
  have notJson := chosenName_not_json job storage.entries job.strategy event.now
  rw [← named] at begins free notJson
  have oneMoreCounted := openCount_store later notFull begins notJson free
  have oneMore := openRun_append_increment storage.history notFull
  have counted := within.counted
  refine ⟨?_, ?_, ?_, ?_⟩
  · apply within.bounded.append
    · intro isEmpty
      exact absurd (within.fresh isEmpty) present
    · omega
  · rw [show (store storage event plan).history = storage.history ++ [plan.strategy] from rfl]
    omega
  · simp [store]
  · intro noTokens
    exact absurd noTokens tokens

theorem takeBackup_withinBound (libs : Libraries) (listing : Listing) {n : Nat}
    (positive : 0 < n) (every : job.backup.fullEvery = n) (storage : JobStorage) (event : RunEvent)
    (within : WithinBound job n storage)
    (safe : DatedLater job storage event ∧ IncrementNameFree job storage event) :
    WithinBound job n (takeBackup libs listing job storage event) := by
  unfold takeBackup
  cases planned : planRun libs job {} (some (listing.run storage.entries)) storage.sidecars
      event.now with
  | error failure => exact within
  | ok plan =>
    obtain ⟨named, full | ⟨notFull, follows, noReset⟩⟩ := planRun_cases planned
    · exact store_full_withinBound within named full
    · exact store_increment_withinBound positive every within safe.1 safe.2 named notFull
        follows noReset

theorem chainBounded_run (libs : Libraries) (listing : Listing) (job : Job) (n : Nat)
    (positive : 0 < n) (every : job.backup.fullEvery = n) (storage : JobStorage)
    (noHistory : storage.history = [])
    (noFiles : candidates storage.entries (backupPrefix job.id) = []) (events : List RunEvent)
    (safe : EveryStep (takeBackup libs listing job)
      (fun storage event => DatedLater job storage event ∧ IncrementNameFree job storage event)
      storage events) :
    ChainBounded n (run (takeBackup libs listing job) storage events).history := by
  have initially : WithinBound job n storage := by
    refine ⟨⟨?_, ?_⟩, ?_, fun _ => noFiles, fun _ => noFiles⟩
    · simp [noHistory]
    · intro before block after shape _
      rw [noHistory] at shape
      simp_all
    · simp [noHistory, openRun]
  exact (invariant_run_of_everyStep (takeBackup_withinBound libs listing positive every)
    initially safe).bounded

/-! ### Two backups in one second -/

def twoDeepJob (db : String) : Job where
  type := "mysql"
  host := "db1"
  databases := [db]
  strategy := .incremental
  backup := { fullEvery := 2 }

def asStored : Listing where
  run entries := entries
  perm _ := List.Perm.refl _

def emptyStorage : JobStorage where
  entries := []
  sidecars _ := none

/-- Four runs, with the second of the third one left open. -/
def fourRuns (third : Int) : List RunEvent :=
  [(0, 1), (86400, 3), (third, 5), (172800, 7)].map fun (seconds, time) =>
    { now := { nanos := (1767225600 + seconds) * second }
      modTime := time
      sidecarTime := time + 1
      position := "binlog.000007:154" }

theorem chainBounded_fourRuns :
    ChainBounded 2 (run (takeBackup weekLibraries asStored (twoDeepJob "app")) emptyStorage
      (fourRuns 129600)).history :=
  chainBounded_run weekLibraries asStored (twoDeepJob "app") 2 (by decide) rfl emptyStorage rfl rfl
    (fourRuns 129600) (by decide +kernel)

/-- The dot in the database name takes the suffix of the second increment, which
so loses the prefix and is not counted. -/
theorem third_increment_with_full_every_two :
    EveryStep (takeBackup weekLibraries asStored (twoDeepJob "app.v1"))
        (DatedLater (twoDeepJob "app.v1")) emptyStorage (fourRuns 86400) ∧
      ¬ ChainBounded 2 (run (takeBackup weekLibraries asStored (twoDeepJob "app.v1")) emptyStorage
        (fourRuns 86400)).history := by
  have ⟨later, taken⟩ : EveryStep (takeBackup weekLibraries asStored (twoDeepJob "app.v1"))
        (DatedLater (twoDeepJob "app.v1")) emptyStorage (fourRuns 86400) ∧
      (run (takeBackup weekLibraries asStored (twoDeepJob "app.v1")) emptyStorage
        (fourRuns 86400)).history = [.full, .incremental, .incremental, .incremental] := by
    decide +kernel
  refine ⟨later, ?_⟩
  intro bounded
  have three := bounded.atMost [.full] [.incremental, .incremental, .incremental] [] taken
    (by decide)
  exact absurd three (by decide)

end DbBackup.Runner.Chain
