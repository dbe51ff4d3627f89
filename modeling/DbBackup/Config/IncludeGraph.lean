import DbBackup.Config.Include

/-!
Owns what `expandIncludes` and `loadMerged` make of a set of files that include
each other.

Contract: `expandIncludes_circular_iff` and `entriesOnce_iff`. Both rest on
`expandIncludes_spec`, an induction on the depth with the files in progress: each
call adds one file to them, so a set of files bounds the depth.
-/

set_option linter.all false

namespace DbBackup.Config.Include

open Lib Lib.Revisit Relation

variable {files : Files}

/-! ### The include graph -/

/-- The paths a file includes. -/
def includePaths (files : Files) (path : String) : Except IncludeError (List String) :=
  match files.read (files.abs path) with
  | none => .error (.reading path)
  | some .broken => .error (.parsing path)
  | some (.document root) => resolveIncludePaths files (dirPath path) (root "include")

def included (files : Files) (path : String) : List String :=
  match includePaths files path with
  | .error _ => []
  | .ok paths => paths

/-- A file can be read and parsed, and its includes stand for paths. -/
def Readable (files : Files) (path : String) : Prop :=
  ∃ paths, includePaths files path = .ok paths

def Includes (files : Files) : String → String → Prop := Edge (included files)

/-- A file is reached from itself, on a way down from the root. -/
def CircularFrom (files : Files) (root : String) : Prop := Cycle (included files) files.abs root

/-- Everything a file leads to is readable and one of the known files. -/
def Closed (files : Files) (known : Finset String) (root : String) : Prop :=
  ∀ path, ReflTransGen (Includes files) root path → Readable files path ∧ files.abs path ∈ known

theorem Readable.document {path : String} (readable : Readable files path) :
    ∃ root, files.read (files.abs path) = some (.document root) ∧
      resolveIncludePaths files (dirPath path) (root "include") = .ok (included files path) := by
  obtain ⟨paths, found⟩ := readable
  have isIncluded : included files path = paths := by
    unfold included
    rw [found]
  rw [isIncluded]
  unfold includePaths at found
  split at found
  · exact nomatch found
  · exact nomatch found
  · next root isRead => exact ⟨root, isRead, found⟩

theorem Closed.child {known : Finset String} {root path : String} (closed : Closed files known root)
    (isChild : path ∈ included files root) : Closed files known path :=
  fun other reach => closed other (reach.head isChild)

/-! ### The loop -/

section Loop

variable {expand : String → Finset String → Except IncludeError Document × Finset String}
  {paths : List String} {root : Document} {inProgress : Finset String}

theorem includeEach_ok
    (each : ∀ path ∈ paths, ∃ document, expand path inProgress = (.ok document, inProgress)) :
    ∃ merged, includeEach expand paths root inProgress = (.ok merged, inProgress) := by
  induction paths generalizing root with
  | nil => exact ⟨root, rfl⟩
  | cons path rest ih =>
    obtain ⟨document, expanded⟩ := each path List.mem_cons_self
    rw [includeEach, expanded]
    exact ih (List.forall_mem_cons.mp each).2

theorem includeEach_circular
    (each : ∀ path ∈ paths, (∃ document, expand path inProgress = (.ok document, inProgress)) ∨
      ∃ again, expand path inProgress = (.error (.circular again), inProgress))
    (some : ∃ path ∈ paths, ∃ again, expand path inProgress = (.error (.circular again), inProgress)) :
    ∃ again, includeEach expand paths root inProgress = (.error (.circular again), inProgress) := by
  induction paths generalizing root with
  | nil => exact absurd some.choose_spec.1 List.not_mem_nil
  | cons path rest ih =>
    rw [includeEach]
    rcases each path List.mem_cons_self with ⟨document, expanded⟩ | ⟨again, expanded⟩
    · rw [expanded]
      refine ih (List.forall_mem_cons.mp each).2 ?_
      obtain ⟨other, isIn, again, failed⟩ := some
      rcases List.mem_cons.mp isIn with rfl | later
      · rw [expanded] at failed
        exact nomatch failed
      · exact ⟨other, later, again, failed⟩
    · rw [expanded]
      exact ⟨again, rfl⟩

theorem includeEach_congr
    {other : String → Finset String → Except IncludeError Document × Finset String}
    (each : ∀ path ∈ paths, ∃ outcome, expand path inProgress = (outcome, inProgress) ∧
      other path inProgress = (outcome, inProgress)) :
    includeEach expand paths root inProgress = includeEach other paths root inProgress := by
  induction paths generalizing root with
  | nil => rfl
  | cons path rest ih =>
    obtain ⟨outcome, one, two⟩ := each path List.mem_cons_self
    rw [includeEach, includeEach, one, two]
    cases outcome with
    | error error => rfl
    | ok document => exact ih (List.forall_mem_cons.mp each).2

end Loop

theorem included_of_absent {path : String} {value : Yaml} (none : value = .absent ∨ value = .null)
    (resolved : resolveIncludePaths files (dirPath path) value = .ok (included files path)) :
    included files path = [] := by
  rcases none with rfl | rfl
  · exact (Except.ok.inj resolved).symm
  · exact (Except.ok.inj resolved).symm

/-- A document is expanded by the loop over its includes; only the key `include`
may differ from what the loop leaves. -/
theorem expandDocument_eq
    (expand : String → Finset String → Except IncludeError Document × Finset String) {path : String}
    {root : Document} (inProgress : Finset String)
    (resolved : resolveIncludePaths files (dirPath path) (root "include") =
      .ok (included files path)) :
    (expandDocument files expand path root inProgress).2 =
        (includeEach expand (included files path) root inProgress).2 ∧
      match (includeEach expand (included files path) root inProgress).1 with
      | .error error => (expandDocument files expand path root inProgress).1 = .error error
      | .ok merged => ∃ document,
          (expandDocument files expand path root inProgress).1 = .ok document ∧
            ∀ key, key ≠ "include" → document key = merged key := by
  unfold expandDocument
  cases value : root "include" with
  | absent =>
    rw [value] at resolved
    rw [included_of_absent (Or.inl rfl) resolved]
    exact ⟨rfl, root, rfl, fun _ _ => rfl⟩
  | null =>
    rw [value] at resolved
    rw [included_of_absent (Or.inr rfl) resolved]
    exact ⟨rfl, root, rfl, fun _ _ => rfl⟩
  | text | other | list | map =>
    rw [value] at resolved
    dsimp only
    rw [resolved]
    dsimp only
    cases includeEach expand (included files path) root inProgress with
    | mk outcome after =>
      cases outcome with
      | error error => exact ⟨rfl, rfl⟩
      | ok merged => exact ⟨rfl, deleteKey merged "include", rfl, fun key isOther => if_neg isOther⟩

theorem readAndExpand_of_read {path : String} {data : Content}
    (expand : Content → String → Finset String → Except IncludeError Document × Finset String)
    (isRead : files.read (files.abs path) = some data) (inProgress : Finset String) :
    readAndExpand files expand path inProgress = expand data path inProgress := by
  unfold readAndExpand
  rw [isRead]

/-- With the files in progress, a call returns a circular include if a way down
meets one of them or a file of its own again, and else a document. The set is as
before in the end. -/
theorem expandIncludes_spec {known : Finset String} {depth : Nat} {path : String} {data : Content}
    {seen : Finset String} (isRead : files.read (files.abs path) = some data)
    (closed : Closed files known path) (within : seen ⊆ known) (deep : known.card < depth + seen.card) :
    (Revisits (included files) files.abs seen path →
      ∃ again, expandIncludes files depth data path seen = (.error (.circular again), seen)) ∧
    (¬ Revisits (included files) files.abs seen path →
      ∃ document, expandIncludes files depth data path seen = (.ok document, seen)) := by
  induction depth generalizing path data seen with
  | zero =>
    have small := Finset.card_le_card within
    omega
  | succ depth ih =>
    unfold expandIncludes
    by_cases again : files.abs path ∈ seen
    · rw [if_pos again]
      exact ⟨fun _ => ⟨path, rfl⟩, fun once => absurd (.here again) once⟩
    · obtain ⟨root, isRead', resolved⟩ := (closed path .refl).1.document
      obtain rfl : data = .document root := Option.some.inj (isRead.symm.trans isRead')
      -- each include is expanded with the file itself in progress
      have grown : (insert (files.abs path) seen).card = seen.card + 1 :=
        Finset.card_insert_of_notMem again
      have child (other : String) (isChild : other ∈ included files path) :
          (Revisits (included files) files.abs (insert (files.abs path) seen) other →
            ∃ again, readAndExpand files (expandIncludes files depth) other
              (insert (files.abs path) seen) =
                (.error (.circular again), insert (files.abs path) seen)) ∧
          (¬ Revisits (included files) files.abs (insert (files.abs path) seen) other →
            ∃ document, readAndExpand files (expandIncludes files depth) other
              (insert (files.abs path) seen) = (.ok document, insert (files.abs path) seen)) := by
        obtain ⟨otherRoot, otherRead, -⟩ := (closed.child isChild other .refl).1.document
        rw [readAndExpand_of_read _ otherRead]
        exact ih otherRead (closed.child isChild)
          (Finset.insert_subset (closed path .refl).2 within) (by omega)
      have erased : (insert (files.abs path) seen).erase (files.abs path) = seen :=
        Finset.erase_insert again
      obtain ⟨sameSet, sameOutcome⟩ :=
        expandDocument_eq (readAndExpand files (expandIncludes files depth))
          (insert (files.abs path) seen) resolved
      rw [if_neg again]
      dsimp only
      rw [revisits_cases]
      constructor
      · rintro (known | ⟨other, isChild, deeper⟩)
        · exact absurd known again
        · obtain ⟨last, looped⟩ := @includeEach_circular _ _ root _
            (fun other isChild => by
              by_cases deeper : Revisits (included files) files.abs
                  (insert (files.abs path) seen) other
              · exact Or.inr ((child other isChild).1 deeper)
              · exact Or.inl ((child other isChild).2 deeper))
            ⟨other, isChild, (child other isChild).1 deeper⟩
          rw [looped] at sameSet sameOutcome
          rw [sameOutcome, sameSet, erased]
          exact ⟨last, rfl⟩
      · intro once
        rw [not_or] at once
        obtain ⟨merged, looped⟩ := @includeEach_ok _ _ root _
          fun other isChild => (child other isChild).2 fun deeper => once.2 ⟨other, isChild, deeper⟩
        rw [looped] at sameSet sameOutcome
        obtain ⟨document, isDocument, -⟩ := sameOutcome
        rw [isDocument, sameSet, erased]
        exact ⟨document, rfl⟩

theorem expandDocument_congr
    {expand other : String → Finset String → Except IncludeError Document × Finset String}
    {path : String} {root : Document} {inProgress : Finset String}
    (same : ∀ paths, resolveIncludePaths files (dirPath path) (root "include") = .ok paths →
      includeEach expand paths root inProgress = includeEach other paths root inProgress) :
    expandDocument files expand path root inProgress =
      expandDocument files other path root inProgress := by
  unfold expandDocument
  cases value : root "include" with
  | absent => rfl
  | null => rfl
  | text | other | list | map =>
    rw [value] at same
    dsimp only
    cases resolved : resolveIncludePaths files (dirPath path) _ with
    | error error => rfl
    | ok paths =>
      dsimp only
      rw [same paths resolved]

/-- A deeper bound changes nothing. -/
theorem expandIncludes_depth {known : Finset String} {depth deeper : Nat} {path : String}
    {data : Content} {seen : Finset String} (isRead : files.read (files.abs path) = some data)
    (closed : Closed files known path) (within : seen ⊆ known) (deep : known.card < depth + seen.card)
    (deepToo : known.card < deeper + seen.card) :
    expandIncludes files depth data path seen = expandIncludes files deeper data path seen := by
  induction depth generalizing path data seen deeper with
  | zero =>
    have small := Finset.card_le_card within
    omega
  | succ depth ih =>
    have small := Finset.card_le_card within
    obtain ⟨deeper, rfl⟩ : ∃ smaller, deeper = smaller + 1 := ⟨deeper - 1, by omega⟩
    unfold expandIncludes
    by_cases again : files.abs path ∈ seen
    · rw [if_pos again, if_pos again]
    · obtain ⟨root, isRead', resolved⟩ := (closed path .refl).1.document
      obtain rfl : data = .document root := Option.some.inj (isRead.symm.trans isRead')
      have grown : (insert (files.abs path) seen).card = seen.card + 1 :=
        Finset.card_insert_of_notMem again
      have inside := Finset.insert_subset (closed path .refl).2 within
      have same : expandDocument files (readAndExpand files (expandIncludes files depth)) path root
          (insert (files.abs path) seen) =
          expandDocument files (readAndExpand files (expandIncludes files deeper)) path root
          (insert (files.abs path) seen) := by
        apply expandDocument_congr
        intro paths found
        obtain rfl : included files path = paths := Except.ok.inj (resolved.symm.trans found)
        apply includeEach_congr
        intro other isChild
        obtain ⟨otherRoot, otherRead, -⟩ := (closed.child isChild other .refl).1.document
        rw [readAndExpand_of_read _ otherRead, readAndExpand_of_read _ otherRead,
          ← @ih deeper _ _ _ otherRead (closed.child isChild) inside (by omega) (by omega)]
        have spec := @expandIncludes_spec files known depth other _ _ otherRead
          (closed.child isChild) inside (by omega)
        by_cases revisits : Revisits (included files) files.abs (insert (files.abs path) seen) other
        · obtain ⟨last, result⟩ := spec.1 revisits
          exact ⟨_, result, result⟩
        · obtain ⟨document, result⟩ := spec.2 revisits
          exact ⟨_, result, result⟩
      rw [if_neg again, if_neg again]
      dsimp only
      rw [same]

/-- For every finite set of readable files that include each other, expansion ends
with a result, and it reports a circular include exactly if a file is reached from
itself. -/
theorem expandIncludes_circular_iff {known : Finset String} {root : String} {data : Content}
    (isRead : files.read (files.abs root) = some data) (closed : Closed files known root)
    {depth : Nat} (deep : known.card < depth) :
    ((expandIncludes files depth data root ∅).1 ≠ .error .unfinished ∧
      ∀ deeper, known.card < deeper →
        expandIncludes files deeper data root ∅ = expandIncludes files depth data root ∅) ∧
      ((∃ path, (expandIncludes files depth data root ∅).1 = .error (.circular path)) ↔
        CircularFrom files root) := by
  have spec := @expandIncludes_spec files known depth root data ∅ isRead closed
    (Finset.empty_subset _) (by simpa using deep)
  have stable (deeper : Nat) (deepToo : known.card < deeper) :
      expandIncludes files deeper data root ∅ = expandIncludes files depth data root ∅ :=
    expandIncludes_depth isRead closed (Finset.empty_subset _) (by simpa using deepToo)
      (by simpa using deep)
  rw [revisits_iff] at spec
  by_cases cycle : CircularFrom files root
  · obtain ⟨again, result⟩ := spec.1 cycle
    refine ⟨⟨?_, stable⟩, ?_⟩
    · rw [result]
      simp
    · rw [result]
      exact iff_of_true ⟨again, rfl⟩ cycle
  · obtain ⟨document, result⟩ := spec.2 cycle
    refine ⟨⟨?_, stable⟩, ?_⟩
    · rw [result]
      simp
    · rw [result]
      exact iff_of_false (by simp) cycle

/-! ### Lists along the includes -/

section Lists

variable {key : String} {keys : List String}

/-- The list a file has at a path of keys. -/
def ownList (files : Files) (key : String) (keys : List String) (abs : String) : List Yaml :=
  match files.read abs with
  | some (.document root) => documentList key keys root
  | _ => []

/-- Wherever a file has the key, it is a list. -/
def ListIn (files : Files) (key : String) (keys : List String) (path : String) : Prop :=
  ∀ root, files.read (files.abs path) = some (.document root) → ListShaped keys (root key)

theorem documentList_includeEach
    {expand : String → Finset String → Except IncludeError Document × Finset String}
    {lists : String → List Yaml} {paths : List String} {root merged : Document}
    {before after : Finset String} (shaped : ListShaped keys (root key))
    (each : ∀ path ∈ paths, ∀ before document after,
      expand path before = (.ok document, after) →
        ListShaped keys (document key) ∧ documentList key keys document = lists path)
    (looped : includeEach expand paths root before = (.ok merged, after)) :
    ListShaped keys (merged key) ∧
      documentList key keys merged = documentList key keys root ++ paths.flatMap lists := by
  induction paths generalizing root before with
  | nil =>
    obtain rfl : root = merged := Except.ok.inj (Prod.mk.inj looped).1
    simpa using shaped
  | cons path rest ih =>
    rw [includeEach] at looped
    split at looped
    · exact nomatch (Prod.mk.inj looped).1
    · next document between expanded =>
        obtain ⟨shapedPath, ofPath⟩ := each path List.mem_cons_self _ _ _ expanded
        obtain ⟨shapedBoth, both⟩ := documentList_mergeYAML shaped shapedPath
        obtain ⟨shapedAll, all⟩ := ih shapedBoth
          (List.forall_mem_cons.mp each).2 looped
        refine ⟨shapedAll, ?_⟩
        rw [all, both, ofPath, List.flatMap_cons, List.append_assoc]

/-- A document that comes out of the expansion has, at a key with lists, the lists
of all ways down in order. -/
theorem documentList_expandIncludes (isKey : key ≠ "include") {depth : Nat} {path : String}
    {data : Content} {document : Document} {seen after : Finset String}
    (isRead : files.read (files.abs path) = some data)
    (lists : ∀ other, ReflTransGen (Includes files) path other →
      Readable files other ∧ ListIn files key keys other)
    (expanded : expandIncludes files depth data path seen = (.ok document, after)) :
    ListShaped keys (document key) ∧ documentList key keys document =
      (walks (included files) depth path).flatMap fun other => ownList files key keys (files.abs other) := by
  induction depth generalizing path data document seen after with
  | zero => exact nomatch (Prod.mk.inj expanded).1
  | succ depth ih =>
    unfold expandIncludes at expanded
    dsimp only at expanded
    split at expanded
    · exact nomatch (Prod.mk.inj expanded).1
    · obtain ⟨root, isRead', resolved⟩ := (lists path .refl).1.document
      obtain rfl : data = .document root := Option.some.inj (isRead.symm.trans isRead')
      have shaped : ListShaped keys (root key) := (lists path .refl).2 root isRead
      have own : ownList files key keys (files.abs path) = documentList key keys root := by
        unfold ownList
        rw [isRead]
      obtain ⟨-, sameOutcome⟩ := expandDocument_eq
        (readAndExpand files (expandIncludes files depth)) (insert (files.abs path) seen) resolved
      have isDocument := (Prod.mk.inj expanded).1
      cases looped : includeEach (readAndExpand files (expandIncludes files depth))
          (included files path) root (insert (files.abs path) seen) with
      | mk outcome end_ =>
        rw [looped] at sameOutcome
        cases outcome with
        | error error =>
          dsimp only at sameOutcome
          rw [sameOutcome] at isDocument
          exact nomatch isDocument
        | ok merged =>
          obtain ⟨same, isSame, agrees⟩ := sameOutcome
          obtain rfl : same = document := Except.ok.inj (isSame.symm.trans isDocument)
          have ofLoop := documentList_includeEach shaped
            (fun other isChild before found after expanded => by
              obtain ⟨otherRoot, otherRead, -⟩ :=
                (lists other (ReflTransGen.single isChild)).1.document
              rw [readAndExpand_of_read _ otherRead] at expanded
              exact ih otherRead (fun last reach => lists last (reach.head isChild)) expanded)
            looped
          rw [documentList, agrees key isKey, walks, List.flatMap_cons, own,
            List.flatMap_assoc]
          exact ofLoop

/-! ### Several files -/

theorem abs_ne_empty {path : String} (named : path ≠ "") : files.abs path ≠ "" := by
  have notNil : path.toList ≠ [] := fun empty => named (String.toList_eq_nil_iff.mp empty)
  have cleaned (text : List Char) : SlashPath.clean text ≠ [] := by
    unfold SlashPath.clean
    dsimp only
    split
    · exact List.cons_ne_nil _ _
    · split
      · exact List.cons_ne_nil _ _
      · next notEmpty => exact notEmpty
  have joined (base : List Char) : SlashPath.join base path.toList ≠ [] := by
    unfold SlashPath.join
    split
    · next empty =>
        have kept : path.toList ∈ [base, path.toList].filter (· ≠ []) := by simp [notNil]
        rw [empty] at kept
        exact absurd kept List.not_mem_nil
    · exact cleaned _
  unfold Files.abs
  split
  · exact fun empty => cleaned _ (by simpa using congrArg String.toList empty)
  · exact fun empty => joined _ (by simpa [joinPath] using congrArg String.toList empty)

theorem ne_empty_of_effective {paths : List String} {root : String}
    (isRoot : root ∈ effectivePaths files paths) : root ≠ "" := by
  have named := (FirstByKey.collect_spec id _).from_entries root isRoot
  obtain ⟨path, kept, rfl⟩ := List.mem_map.mp named
  exact abs_ne_empty (by simpa using (List.mem_filter.mp kept).2)

/-- A finite set of readable files without a circular include, with lists at the
key. -/
structure ListFiles (files : Files) (known : Finset String) (key : String) (keys : List String)
    (root : String) : Prop where
  closed : Closed files known root
  acyclic : ¬ CircularFrom files root
  lists : ∀ path, ReflTransGen (Includes files) root path → ListIn files key keys path

/-- The files at the ends of all ways down from the roots. -/
def ways (files : Files) (depth : Nat) (roots : List String) : List String :=
  (roots.flatMap (walks (included files) depth)).map files.abs

theorem documentList_readConfigBytes {known : Finset String} {root : String} {depth : Nat}
    (isKey : key ≠ "include") (named : root ≠ "") (given : ListFiles files known key keys root)
    (deep : known.card < depth) :
    ∃ document, readConfigBytes files depth root = .ok document ∧ ListShaped keys (document key) ∧
      documentList key keys document =
        (ways files depth [root]).flatMap (ownList files key keys) := by
  obtain ⟨rootDocument, isRead, -⟩ := (given.closed root .refl).1.document
  have spec := @expandIncludes_spec files known depth root _ ∅ isRead given.closed
    (Finset.empty_subset _) (by simpa using deep)
  rw [revisits_iff] at spec
  obtain ⟨document, expanded⟩ := spec.2 given.acyclic
  have lists := documentList_expandIncludes isKey isRead
    (fun other reach => ⟨(given.closed other reach).1, given.lists other reach⟩) expanded
  refine ⟨document, ?_, lists.1, ?_⟩
  · unfold readConfigBytes
    rw [if_neg named, isRead]
    dsimp only
    rw [expanded]
  · rw [lists.2, ways, List.flatMap_singleton, List.flatMap_map]

theorem ways_append (depth : Nat) (one two : List String) :
    ways files depth (one ++ two) = ways files depth one ++ ways files depth two := by
  simp [ways]

/-- The merged document has the lists of all ways down from all files. -/
theorem documentList_loadMerged {known : Finset String} {paths : List String} {depth : Nat}
    (isKey : key ≠ "include")
    (given : ∀ root ∈ effectivePaths files paths, ListFiles files known key keys root)
    (deep : known.card < depth) :
    ∃ document, loadMerged files depth paths = .ok document ∧
      documentList key keys document =
        (ways files depth (effectivePaths files paths)).flatMap (ownList files key keys) := by
  have each (root : String) (isRoot : root ∈ effectivePaths files paths) :=
    documentList_readConfigBytes isKey (ne_empty_of_effective isRoot) (given root isRoot) deep
  have fold (rest : List String) (merged : Document) (before : List String)
      (isRest : ∀ root ∈ rest, root ∈ effectivePaths files paths)
      (shaped : ListShaped keys (merged key))
      (lists : documentList key keys merged =
        (ways files depth before).flatMap (ownList files key keys)) :
      ∃ document, rest.foldlM (fun merged path => do
          let document ← readConfigBytes files depth path
          .ok (mergeYAML merged document)) merged = .ok document ∧
        documentList key keys document =
          (ways files depth (before ++ rest)).flatMap (ownList files key keys) := by
    induction rest generalizing merged before with
    | nil => exact ⟨merged, rfl, by rw [List.append_nil]; exact lists⟩
    | cons path rest ih =>
      obtain ⟨document, isRead, shapedPath, ofPath⟩ := each path (isRest path List.mem_cons_self)
      obtain ⟨shapedBoth, both⟩ := documentList_mergeYAML shaped shapedPath
      obtain ⟨result, folded, all⟩ := ih (mergeYAML merged document) (before ++ [path])
        (List.forall_mem_cons.mp isRest).2 shapedBoth
        (by rw [both, lists, ofPath, ways_append, List.flatMap_append])
      refine ⟨result, ?_, ?_⟩
      · rw [List.foldlM_cons, isRead]
        exact folded
      · rw [all, List.append_assoc]
        rfl
  unfold loadMerged
  cases roots : effectivePaths files paths with
  | nil => exact ⟨_, rfl, listAt_absent keys⟩
  | cons first rest =>
    rw [roots] at each fold
    obtain ⟨document, isRead, shaped, lists⟩ := each first List.mem_cons_self
    obtain ⟨result, folded, all⟩ := fold rest document [first]
      (fun root isIn => List.mem_cons_of_mem _ isIn) shaped lists
    cases rest with
    | nil => exact ⟨document, isRead, lists⟩
    | cons second others =>
      refine ⟨result, ?_, all⟩
      dsimp only
      rw [isRead]
      exact folded

/-- A file that one of the roots leads to. -/
def IsReached (files : Files) (roots : List String) (abs : String) : Prop :=
  ∃ root ∈ roots, ∃ path, ReflTransGen (Includes files) root path ∧ files.abs path = abs

/-- The list of a document has every entry of every reached file once. -/
def EntriesOnce (files : Files) (roots : List String) (key : String) (keys : List String)
    (document : Document) : Prop :=
  ∀ reached : List String, reached.Nodup → (∀ abs, abs ∈ reached ↔ IsReached files roots abs) →
    (documentList key keys document).Perm (reached.flatMap (ownList files key keys))

theorem mem_ways {known : Finset String} {roots : List String} {depth : Nat} {abs : String}
    (given : ∀ root ∈ roots, ListFiles files known key keys root) (deep : known.card < depth) :
    abs ∈ ways files depth roots ↔ IsReached files roots abs := by
  simp only [ways, List.mem_map, List.mem_flatMap, IsReached]
  constructor
  · rintro ⟨path, ⟨root, isRoot, isEnd⟩, rfl⟩
    exact ⟨root, isRoot, path, walks_reach isEnd, rfl⟩
  · rintro ⟨root, isRoot, path, reach, rfl⟩
    refine ⟨path, ⟨root, isRoot, ?_⟩, rfl⟩
    refine @mem_walks _ _ _ _ files.abs known ∅ root path reach
      (fun node reach => ((given root isRoot).closed node reach).2) (Finset.empty_subset _) ?_
      depth (by simpa using deep)
    rw [revisits_iff]
    exact (given root isRoot).acyclic

/-- The merged document has each entry of each reached file once, exactly if every
file with entries is reached one way only. -/
theorem entriesOnce_iff {known : Finset String} {paths : List String} {depth : Nat}
    (isKey : key ≠ "include")
    (given : ∀ root ∈ effectivePaths files paths, ListFiles files known key keys root)
    (deep : known.card < depth) :
    ∃ document, loadMerged files depth paths = .ok document ∧
      (EntriesOnce files (effectivePaths files paths) key keys document ↔
        ∀ abs, IsReached files (effectivePaths files paths) abs → ownList files key keys abs ≠ [] →
          (ways files depth (effectivePaths files paths)).count abs = 1) := by
  obtain ⟨document, loaded, lists⟩ := documentList_loadMerged isKey given deep
  have once := perm_dedup_iff (ownList files key keys)
    (ways files depth (effectivePaths files paths))
  rw [← lists] at once
  simp only [mem_ways given deep] at once
  refine ⟨document, loaded, Iff.trans ⟨fun all => ?_, fun perm reached nodup isReached => ?_⟩ once⟩
  · exact all _ (List.nodup_dedup _) fun abs => List.mem_dedup.trans (mem_ways given deep)
  · refine perm.trans (List.Perm.flatMap_right _ ?_)
    refine (List.perm_ext_iff_of_nodup (List.nodup_dedup _) nodup).mpr fun abs => ?_
    rw [List.mem_dedup, mem_ways given deep, isReached]

end Lists

/-! ### A diamond -/

/-- A document with an `include` and one job, where there are any. -/
def smallDocument (includes jobs : List String) : Document := fun key =>
  if key = "include" && includes ≠ [] then .list (includes.map .text)
  else if key = "jobs" && jobs ≠ [] then .list (jobs.map .text)
  else .absent

/-- Two files share a third one. -/
def diamond : Files where
  cwd := "/"
  getenv _ := ""
  glob _ := some []
  read path :=
    if path = "/c/root.yaml" then some (.document (smallDocument ["a.yaml", "b.yaml"] []))
    else if path = "/c/a.yaml" then some (.document (smallDocument ["common.yaml"] []))
    else if path = "/c/b.yaml" then some (.document (smallDocument ["common.yaml"] []))
    else if path = "/c/common.yaml" then some (.document (smallDocument [] ["nightly"]))
    else none

def diamondPaths : List String :=
  ["/c/root.yaml", "/c/a.yaml", "/c/b.yaml", "/c/common.yaml"]

theorem included_diamond :
    included diamond "/c/root.yaml" = ["/c/a.yaml", "/c/b.yaml"] ∧
    included diamond "/c/a.yaml" = ["/c/common.yaml"] ∧
    included diamond "/c/b.yaml" = ["/c/common.yaml"] ∧
    included diamond "/c/common.yaml" = [] := by
  decide +kernel

theorem diamond_reach {path : String}
    (reach : ReflTransGen (Includes diamond) "/c/root.yaml" path) : path ∈ diamondPaths := by
  obtain ⟨ofRoot, ofA, ofB, ofCommon⟩ := included_diamond
  induction reach with
  | refl => decide
  | tail _ step ih =>
    unfold Includes Edge at step
    simp only [diamondPaths, List.mem_cons, List.not_mem_nil, or_false] at ih
    rcases ih with rfl | rfl | rfl | rfl
    · rw [ofRoot] at step
      rcases List.mem_pair.mp step with rfl | rfl <;> decide
    · rw [ofA] at step
      rw [List.mem_singleton.mp step]
      decide
    · rw [ofB] at step
      rw [List.mem_singleton.mp step]
      decide
    · rw [ofCommon] at step
      exact absurd step List.not_mem_nil

theorem diamond_reached (abs : String) :
    abs ∈ diamondPaths ↔ IsReached diamond ["/c/root.yaml"] abs := by
  obtain ⟨ofRoot, ofA, ofB, ofCommon⟩ := included_diamond
  have toA : Includes diamond "/c/root.yaml" "/c/a.yaml" := by
    unfold Includes Edge
    rw [ofRoot]
    decide
  have toB : Includes diamond "/c/root.yaml" "/c/b.yaml" := by
    unfold Includes Edge
    rw [ofRoot]
    decide
  have toCommon : Includes diamond "/c/a.yaml" "/c/common.yaml" := by
    unfold Includes Edge
    rw [ofA]
    decide
  have fixed : ∀ path ∈ diamondPaths, diamond.abs path = path := by
    decide +kernel
  constructor
  · intro isIn
    refine ⟨_, List.mem_singleton_self _, abs, ?_, fixed abs isIn⟩
    simp only [diamondPaths, List.mem_cons, List.not_mem_nil, or_false] at isIn
    rcases isIn with rfl | rfl | rfl | rfl
    · exact .refl
    · exact .single toA
    · exact .single toB
    · exact (ReflTransGen.single toA).tail toCommon
  · rintro ⟨root, isRoot, path, reach, rfl⟩
    rw [List.mem_singleton.mp isRoot] at reach
    rw [fixed path (diamond_reach reach)]
    exact diamond_reach reach

theorem diamond_closed : Closed diamond diamondPaths.toFinset "/c/root.yaml" := by
  intro path reach
  have isIn := diamond_reach reach
  constructor
  · have readable : ∀ path ∈ diamondPaths, (includePaths diamond path).toBool = true := by
      decide +kernel
    have isOk := readable path isIn
    cases found : includePaths diamond path with
    | error error => simp [found, Except.toBool] at isOk
    | ok paths => exact ⟨paths, found⟩
  · rw [List.mem_toFinset]
    exact (diamond_reached _).mpr ⟨_, List.mem_singleton_self _, path, reach, rfl⟩

theorem expands_diamond :
    (expandIncludes diamond 5 (.document (smallDocument ["a.yaml", "b.yaml"] []))
      "/c/root.yaml" ∅).1.toBool = true := by
  decide +kernel

theorem diamond_acyclic : ¬ CircularFrom diamond "/c/root.yaml" := by
  intro cycle
  have spec := (@expandIncludes_spec diamond diamondPaths.toFinset 5 "/c/root.yaml"
    (.document (smallDocument ["a.yaml", "b.yaml"] [])) ∅ rfl diamond_closed
    (Finset.empty_subset _) (by decide)).1
  obtain ⟨path, failed⟩ := spec (revisits_iff.mpr cycle)
  have expands := expands_diamond
  rw [failed] at expands
  exact nomatch expands

/-- Sharing a file is no circular include. -/
theorem diamond_not_circular :
    ¬ ∃ path, (expandIncludes diamond 5 (.document (smallDocument ["a.yaml", "b.yaml"] []))
      "/c/root.yaml" ∅).1 = .error (.circular path) :=
  fun circular => diamond_acyclic ((@expandIncludes_circular_iff diamond diamondPaths.toFinset
    "/c/root.yaml" (.document (smallDocument ["a.yaml", "b.yaml"] [])) rfl diamond_closed 5
    (by decide)).2.mp circular)

theorem effective_diamond : effectivePaths diamond ["/c/root.yaml"] = ["/c/root.yaml"] := by
  decide +kernel

theorem smallDocument_jobs (includes jobs : List String) :
    ListShaped [] (smallDocument includes jobs "jobs") := by
  have other : ("jobs" = "include") = False := by decide
  unfold smallDocument
  by_cases none : jobs = []
  · simp [none, other, ListShaped]
  · simp [none, other, ListShaped]

theorem diamond_files (root : String) (isRoot : root ∈ effectivePaths diamond ["/c/root.yaml"]) :
    ListFiles diamond diamondPaths.toFinset "jobs" [] root := by
  rw [effective_diamond] at isRoot
  rw [List.mem_singleton.mp isRoot]
  refine ⟨diamond_closed, diamond_acyclic, fun path _ document isRead => ?_⟩
  unfold diamond at isRead
  dsimp only at isRead
  repeat' split at isRead
  all_goals first
    | (obtain rfl := Content.document.inj (Option.some.inj isRead); exact smallDocument_jobs _ _)
    | exact nomatch isRead

theorem diamond_entriesOnce_iff :
    ∃ document, loadMerged diamond 5 ["/c/root.yaml"] = .ok document ∧
      (EntriesOnce diamond (effectivePaths diamond ["/c/root.yaml"]) "jobs" [] document ↔
        ∀ abs, IsReached diamond (effectivePaths diamond ["/c/root.yaml"]) abs →
          ownList diamond "jobs" [] abs ≠ [] →
          (ways diamond 5 (effectivePaths diamond ["/c/root.yaml"])).count abs = 1) :=
  entriesOnce_iff (by decide) diamond_files (by decide)

/-- The entry of the shared file is there twice. -/
theorem diamond_entries_twice :
    ∃ document, loadMerged diamond 5 ["/c/root.yaml"] = .ok document ∧
      (documentList "jobs" [] document).length = 2 ∧
      ¬ EntriesOnce diamond (effectivePaths diamond ["/c/root.yaml"]) "jobs" [] document := by
  have twice : ((loadMerged diamond 5 ["/c/root.yaml"]).toOption.map fun document =>
      (documentList "jobs" [] document).length) = some 2 := by
    decide +kernel
  cases loaded : loadMerged diamond 5 ["/c/root.yaml"] with
  | error error => simp [loaded, Except.toOption] at twice
  | ok document =>
    have length : (documentList "jobs" [] document).length = 2 := by
      simpa [loaded, Except.toOption] using twice
    refine ⟨document, rfl, length, fun once => ?_⟩
    rw [effective_diamond] at once
    have perm := once diamondPaths (by decide) diamond_reached
    have single : (diamondPaths.flatMap (ownList diamond "jobs" [])).length = 1 := by
      decide +kernel
    have lengths := perm.length_eq
    omega

end DbBackup.Config.Include
