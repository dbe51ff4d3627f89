import DbBackup.Storage.Backends

/-!
Owns which object stores list their own objects under usable names: `List("")`
returns the objects below the configured path, and each returned path leads back
to its object.

Contract: `listsKeys_iff` goes name by name. S3 fits every name (`s3_fits`). Azure
searches without a slash behind the path (`azure_fits_iff`), and Google Cloud
Storage cleans the names it asks for (`gcs_fits_iff`).
-/

set_option linter.all false

namespace DbBackup.Storage.Backends

open Lib.Percent Lib.SlashPath

/-- Whether an object is stored below the configured path. -/
def below (path name : List Char) : Bool :=
  trimSlashes path = [] || (trimSlashes path ++ slash).isPrefixOf name

/-- What `List("")` returns are the objects below the path, and `Download` and
`Delete` of a returned path are requests for its object. -/
structure ListsKeys (scheme : KeyScheme) (path : List Char) (store : ObjectStore) : Prop where
  exact : (scheme.listed store).map Prod.fst = store.objects.filter (below path)
  addresses : ∀ entry ∈ scheme.listed store,
    unescape (scheme.objectURL entry.2) = some (bytes entry.1)

/-! ### Keys -/

theorem listed_eq (scheme : KeyScheme) (store : ObjectStore) :
    scheme.listed store = (store.objects.filter fun name =>
      scheme.search.isPrefixOf name && !scheme.leavesOut name).map fun name =>
        (name, scheme.entryPath name) := by
  have pagewise : ∀ pages : List (List (List Char)),
      (pages.flatMap fun page => (page.filter fun name => !scheme.leavesOut name).map fun name =>
        (name, scheme.entryPath name)) =
      (pages.flatten.filter fun name => !scheme.leavesOut name).map fun name =>
        (name, scheme.entryPath name) := by
    intro pages
    induction pages with
    | nil => rfl
    | cons page pages ih =>
      rw [List.flatMap_cons, ih, List.flatten_cons, List.filter_append,
        List.map_append]
  unfold KeyScheme.listed
  rw [pagewise, store.answers, List.filter_filter]
  congr 1
  apply List.filter_congr
  intro name _
  exact Bool.and_comm _ _

/-- Name by name: an object is listed if it lies below the path, and then its
path leads back to it. -/
def KeyScheme.Fits (scheme : KeyScheme) (path name : List Char) : Prop :=
  (scheme.search.isPrefixOf name && !scheme.leavesOut name) = below path name ∧
    (below path name = true → scheme.objectName (scheme.entryPath name) = name)

theorem listsKeys_iff (scheme : KeyScheme) (path : List Char) (store : ObjectStore) :
    ListsKeys scheme path store ↔ ∀ name ∈ store.objects, scheme.Fits path name := by
  have addressed (name path : List Char) :
      unescape (scheme.objectURL path) = some (bytes name) ↔ scheme.objectName path = name := by
    rw [KeyScheme.objectURL, unescape_escape scheme.noPercent, Option.some.injEq, bytes_inj]
  have firsts : (scheme.listed store).map Prod.fst = store.objects.filter fun name =>
      scheme.search.isPrefixOf name && !scheme.leavesOut name := by
    rw [listed_eq, List.map_map]
    exact List.map_id _
  constructor
  · intro own name member
    have exact := own.exact
    rw [firsts] at exact
    have same : (scheme.search.isPrefixOf name && !scheme.leavesOut name) = below path name := by
      have inBoth := congrArg (name ∈ ·) exact
      rw [eq_iff_iff, List.mem_filter, List.mem_filter] at inBoth
      apply Bool.eq_iff_iff.mpr
      exact ⟨fun found => (inBoth.mp ⟨member, found⟩).2, fun found => (inBoth.mpr ⟨member, found⟩).2⟩
    refine ⟨same, fun isBelow => ?_⟩
    rw [← addressed]
    apply own.addresses (name, scheme.entryPath name)
    rw [listed_eq]
    exact List.mem_map_of_mem (List.mem_filter.mpr ⟨member, same.trans isBelow⟩)
  · intro fits
    refine ⟨?_, ?_⟩
    · rw [firsts]
      exact List.filter_congr fun name member => (fits name member).1
    · intro entry member
      rw [listed_eq] at member
      obtain ⟨name, isListed, rfl⟩ := List.mem_map.mp member
      obtain ⟨inStore, found⟩ := List.mem_filter.mp isListed
      rw [addressed]
      exact (fits name inStore).2 ((fits name inStore).1.symm.trans found)

/-! ### The folder -/

theorem cutStart_slash_of_head {text : List Char} (head : text.head? ≠ some '/') :
    cutStart slash text = text := by
  apply cutStart_of_not_prefix
  rintro ⟨rest, rfl⟩
  exact head rfl

variable (path : List Char)

theorem trimSlashes_cutStart :
    trimSlashes (cutStart slash path) = trimSlashes path := by
  rcases cutStart_cases slash path with shape | ⟨-, same⟩
  · have whole : trimSlashes ('/' :: cutStart slash path) = trimSlashes (cutStart slash path) := rfl
    rw [← whole]
    exact congrArg trimSlashes shape.symm
  · rw [same]

theorem bare_folder : Bare (trimSlashes path) := (trimSlashes_shape path).1

/-- What is below a folder. -/
theorem below_iff {path name : List Char} (inFolder : trimSlashes path ≠ []) :
    below path name = true ↔ ∃ rest, name = trimSlashes path ++ '/' :: rest := by
  unfold below
  rw [Bool.or_eq_true, decide_eq_true_eq, or_iff_right inFolder, List.isPrefixOf_iff_prefix]
  constructor
  · rintro ⟨rest, rfl⟩
    exact ⟨rest, by simp [slash]⟩
  · rintro ⟨rest, rfl⟩
    exact ⟨rest, by simp [slash]⟩

theorem below_root {path : List Char} (root : trimSlashes path = []) (name : List Char) :
    below path name = true := by
  simp [below, root]

theorem head_append_of_bare {folder rest : List Char} (bare : Bare folder)
    (inFolder : folder ≠ []) : (folder ++ rest).head? ≠ some '/' := by
  rw [List.head?_append_of_ne_nil _ inFolder]
  exact bare.1

/-! ### S3 -/

theorem s3_search :
    (s3 path).search = if trimSlashes path = [] then [] else trimSlashes path ++ slash := by
  have key : s3Key (trimSlashes path) [] =
      if trimSlashes path = [] then [] else trimSlashes path ++ slash := by
    unfold s3Key
    by_cases root : trimSlashes path = []
    · rw [root]
      rfl
    · rw [if_neg root]
      have head := @head_append_of_bare _ slash (bare_folder path) root
      rw [show cutStart slash [] = [] from rfl, List.append_nil, cutStart_slash_of_head head]
  show withSlash (s3Key (trimSlashes (cutStart slash path)) []) = _
  rw [trimSlashes_cutStart, key]
  by_cases root : trimSlashes path = []
  · rw [if_pos root]
    rfl
  · rw [if_neg root]
    simp [withSlash, slash]

theorem ne_slash_end {folder name : List Char} (solid : Solid name) : name ≠ folder ++ slash := by
  rintro rfl
  exact solid.bare.2 (by simp [slash])

/-- The path of an object in the folder, and back. -/
theorem cutStart_folder (folder rest : List Char) :
    cutStart (folder ++ slash) (folder ++ '/' :: rest) = rest := by
  have shape : folder ++ '/' :: rest = folder ++ slash ++ rest := by simp [slash]
  rw [shape, cutStart_append]

variable {name : List Char}

theorem s3_fits (solid : Solid name) : (s3 path).Fits path name := by
  have leavesOut : (s3 path).leavesOut name = decide (name = (s3 path).search) := rfl
  have entryPath : (s3 path).entryPath name = cutStart (trimSlashes path ++ slash) name := by
    show cutStart (trimSlashes (cutStart slash path) ++ slash) name = _
    rw [trimSlashes_cutStart]
  have objectName (rest : List Char) : (s3 path).objectName rest =
      cutStart slash (trimSlashes path ++ slash ++ cutStart slash rest) := by
    show cutStart slash (trimSlashes (cutStart slash path) ++ slash ++ cutStart slash rest) = _
    rw [trimSlashes_cutStart]
  unfold KeyScheme.Fits
  rw [leavesOut, s3_search path, entryPath, objectName]
  by_cases root : trimSlashes path = []
  · have kept := cutStart_slash_of_head solid.bare.1
    refine ⟨by simp [root, below, solid.ne_nil], fun _ => ?_⟩
    rw [root, List.nil_append, kept, kept]
    exact cutStart_append slash name
  · rw [if_neg root, decide_eq_false (ne_slash_end solid)]
    refine ⟨by simp [below, root], fun isBelow => ?_⟩
    obtain ⟨rest, rfl⟩ := (below_iff root).mp isBelow
    have restSolid := (solid_append_slash.mp solid).2
    rw [cutStart_folder, cutStart_slash_of_head restSolid.bare.1, List.append_assoc,
      cutStart_slash_of_head (head_append_of_bare (bare_folder path) root)]
    rfl

/-! ### Azure -/

/-- Azure keeps slashes around the folder, and searches for the folder without
the slash behind it. -/
theorem azure_search : (azure path).search = trimSlashes path := by
  have trimmed : trimSlashes (cutStart slash path ++ slash ++ cutStart slash []) =
      trimSlashes path := by
    obtain ⟨bare, before, after, shape⟩ := trimSlashes_shape (cutStart slash path)
    rw [trimSlashes_cutStart] at shape bare
    have longer : cutStart slash path ++ slash ++ cutStart slash [] =
        List.replicate before '/' ++ trimSlashes path ++ List.replicate (after + 1) '/' := by
      rw [shape, List.replicate_succ']
      simp [slash, cutStart]
    rw [longer, trimSlashes_of_bare bare]
  show cutStart slash (trimSlashes (cutStart slash path ++ slash ++ cutStart slash [])) = _
  rw [trimmed, cutStart_slash_of_head (bare_folder path).1]

/-- Every object whose name starts with the folder is in it, and the path has no
slashes around it but one before it. -/
def AzureFits (path name : List Char) : Prop :=
  trimSlashes path <+: name → name ≠ trimSlashes path →
    cutStart slash path = trimSlashes path ∧ trimSlashes path ++ slash <+: name

theorem bare_append {folder rest : List Char} (bare : Bare folder) (inFolder : folder ≠ [])
    (solid : Solid rest) : Bare (folder ++ '/' :: rest) := by
  refine ⟨head_append_of_bare bare inFolder, ?_⟩
  rw [List.getLast?_append_of_ne_nil _ (List.cons_ne_nil _ _),
    List.getLast?_cons_of_ne_nil solid.ne_nil]
  exact solid.bare.2

theorem azure_objectName {rest : List Char} (solid : Solid rest) : (azure path).objectName rest =
      if trimSlashes path = [] then rest else trimSlashes path ++ '/' :: rest := by
  have shape : (azure path).objectName rest = trimSlashes (trimSlashes path ++ '/' :: rest) := by
    show trimSlashes (trimSlashes (cutStart slash path) ++ slash ++ cutStart slash rest) = _
    rw [trimSlashes_cutStart, cutStart_slash_of_head solid.bare.1, List.append_assoc]
    rfl
  rw [shape]
  by_cases root : trimSlashes path = []
  · rw [if_pos root, root]
    exact (trimSlashes_eq_self solid.bare)
  · rw [if_neg root, trimSlashes_eq_self (bare_append (bare_folder path) root solid)]

/-- With other slashes around the folder no name starts with it. -/
theorem entryPath_of_slashes {path name : List Char} (solid : Solid name)
    (slashes : cutStart slash path ≠ trimSlashes path ∨ trimSlashes path = []) :
    cutStart (cutStart slash path ++ slash) name = name := by
  apply cutStart_of_not_prefix
  rintro ⟨rest, rfl⟩
  have folderSolid : Solid (cutStart slash path) := by
    have whole : cutStart slash path ++ slash ++ rest = cutStart slash path ++ '/' :: rest := by
      simp [slash]
    rw [whole] at solid
    exact (solid_append_slash.mp solid).1
  have trimmed := trimSlashes_eq_self folderSolid.bare
  rw [trimSlashes_cutStart] at trimmed
  rcases slashes with differs | root
  · exact differs trimmed.symm
  · exact folderSolid.ne_nil (trimmed.symm.trans root)

theorem azure_fits_iff (solid : Solid name) :
    (azure path).Fits path name ↔ trimSlashes path = [] ∨ AzureFits path name := by
  have leavesOut : (azure path).leavesOut name = decide (name = trimSlashes path) := by
    show decide (name = (azure path).search) = _
    rw [azure_search]
  have entryPath : (azure path).entryPath name = cutStart (cutStart slash path ++ slash) name := rfl
  unfold KeyScheme.Fits
  rw [leavesOut, azure_search, entryPath]
  by_cases root : trimSlashes path = []
  · rw [entryPath_of_slashes solid (.inr root), azure_objectName path solid, if_pos root]
    simp [root, below, solid.ne_nil]
  rw [or_iff_right root]
  have found : (trimSlashes path).isPrefixOf name && !decide (name = trimSlashes path) ↔
      trimSlashes path <+: name ∧ name ≠ trimSlashes path := by
    simp
  have inside (isBelow : below path name = true) :
      trimSlashes path <+: name ∧ name ≠ trimSlashes path := by
    obtain ⟨rest, rfl⟩ := (below_iff root).mp isBelow
    exact ⟨⟨_, rfl⟩, by simp⟩
  constructor
  · rintro ⟨same, back⟩ starts notFolder
    have isBelow : below path name = true := same.symm.trans (found.mpr ⟨starts, notFolder⟩)
    obtain ⟨rest, shape⟩ := (below_iff root).mp isBelow
    refine ⟨?_, rest, by simp [slash, shape]⟩
    by_contra slashes
    have again := back isBelow
    rw [entryPath_of_slashes solid (.inl slashes), azure_objectName path solid, if_neg root] at again
    have lengths := congrArg List.length again
    rw [List.length_append, List.length_cons] at lengths
    omega
  · intro fits
    refine ⟨Bool.eq_iff_iff.mpr ⟨fun isFound => ?_, fun isBelow => ?_⟩, fun isBelow => ?_⟩
    · obtain ⟨starts, notFolder⟩ := found.mp isFound
      obtain ⟨-, rest, shape⟩ := fits starts notFolder
      exact (below_iff root).mpr ⟨rest, by simpa [slash] using shape.symm⟩
    · exact found.mpr (inside isBelow)
    · obtain ⟨starts, notFolder⟩ := inside isBelow
      obtain ⟨noSlashes, -⟩ := fits starts notFolder
      obtain ⟨rest, rfl⟩ := (below_iff root).mp isBelow
      rw [noSlashes, cutStart_folder, azure_objectName path (solid_append_slash.mp solid).2,
        if_neg root]

/-! ### Google Cloud Storage -/

/-- The folder as it is kept, with the slashes of the path but one before it. -/
theorem folder_shape : ∃ before after, cutStart slash path =
    List.replicate before '/' ++ trimSlashes path ++ List.replicate after '/' := by
  obtain ⟨-, before, after, shape⟩ := trimSlashes_shape (cutStart slash path)
  rw [trimSlashes_cutStart] at shape
  exact ⟨before, after, shape⟩

/-- Without a second slash before the path: names are clean, and so is the folder,
with no slash behind it. (A folder such as `../a` may have slashes behind it.) -/
def GcsFits (path name : List Char) : Prop :=
  if (cutStart slash path).head? = some '/' then below path name = false
  else if trimSlashes path = [] then clean name = name
  else (trimSlashes path ++ slash <+: name ∨ clean (trimSlashes path) ++ slash <+: name) →
    trimSlashes path ++ slash <+: name ∧ clean name = name ∧
      (cutStart slash path = trimSlashes path ∨
        clean (trimSlashes path ++ '/' :: trimSlashes path) = trimSlashes path)

theorem gcs_search : (gcs path).search =
    if cutStart slash path = [] then [] else withSlash (clean (cutStart slash path)) := by
  show withSlash (join (cutStart slash path) (cutStart slash [])) = _
  rw [show cutStart slash [] = [] from rfl]
  by_cases empty : cutStart slash path = []
  · rw [if_pos empty, empty]
    rfl
  · rw [if_neg empty, join_nil_right empty]

theorem gcs_found (path name : List Char) :
    ((gcs path).search.isPrefixOf name && !(gcs path).leavesOut name) = true ↔
      (gcs path).search <+: name ∧ name ≠ (gcs path).search := by
  have leavesOut : (gcs path).leavesOut name =
      (decide (name = (gcs path).search) || decide (cutStart (gcs path).search name = [])) := rfl
  rw [leavesOut, Bool.and_eq_true, List.isPrefixOf_iff_prefix, and_congr_right_iff]
  rintro ⟨rest, rfl⟩
  rw [cutStart_append]
  simp

/-- Behind a second slash nothing is found. -/
theorem gcs_fits_rooted {path name : List Char} (solid : Solid name)
    (rooted : (cutStart slash path).head? = some '/') :
    (gcs path).Fits path name ↔ below path name = false := by
  obtain ⟨rest, shape⟩ := List.head?_eq_some_iff.mp rooted
  have cleaned : ∃ body, clean (cutStart slash path) = '/' :: body := by
    rw [shape]
    exact ⟨_, rfl⟩
  obtain ⟨body, cleanShape⟩ := cleaned
  have notFound : ¬ (gcs path).search <+: name := by
    rw [gcs_search, if_neg (by simp [shape]), cleanShape]
    rintro ⟨after, rfl⟩
    apply solid.bare.1
    unfold withSlash
    split <;> rfl
  have found : ((gcs path).search.isPrefixOf name && !(gcs path).leavesOut name) = false := by
    rw [Bool.eq_false_iff]
    exact fun isFound => notFound ((gcs_found path name).mp isFound).1
  unfold KeyScheme.Fits
  rw [found]
  constructor
  · exact fun fits => fits.1.symm
  · intro outside
    refine ⟨outside.symm, fun isBelow => ?_⟩
    rw [outside] at isBelow
    cases isBelow

theorem gcs_fits_root {path name : List Char} (solid : Solid name)
    (empty : cutStart slash path = []) : (gcs path).Fits path name ↔ clean name = name := by
  have root : trimSlashes path = [] := by
    rw [← trimSlashes_cutStart, empty]
    rfl
  have found : ((gcs path).search.isPrefixOf name && !(gcs path).leavesOut name) = true := by
    rw [gcs_found, gcs_search, if_pos empty]
    exact ⟨List.nil_prefix, solid.ne_nil⟩
  have back : (gcs path).objectName ((gcs path).entryPath name) = clean name := by
    show join (cutStart slash path) (cutStart slash (cutStart (cutStart slash path ++ slash) name))
      = _
    have kept := cutStart_slash_of_head solid.bare.1
    rw [empty, List.nil_append, kept, kept, join_nil_left solid.ne_nil]
  unfold KeyScheme.Fits
  rw [found, back, below_root root]
  simp

section Folder

variable {path : List Char}

/-- Slashes behind the folder are cleaned away. -/
theorem clean_folder_append (inFolder : trimSlashes path ≠ []) (count : Nat) (rest : List Char) :
    clean (trimSlashes path ++ List.replicate count '/' ++ '/' :: rest) =
      clean (trimSlashes path ++ '/' :: rest) := by
  have bare := bare_folder path
  have head := @head_append_of_bare _ (List.replicate count '/' ++ '/' :: rest) bare inFolder
  rw [← List.append_assoc] at head
  rw [clean_of_stack head, clean_of_stack (head_append_of_bare bare inFolder),
    stackOf_append_slash, stackOf_append_slash, stackOf_slashes]

theorem clean_folder (inFolder : trimSlashes path ≠ []) (count : Nat) :
    clean (trimSlashes path ++ List.replicate count '/') = clean (trimSlashes path) := by
  have bare := bare_folder path
  rw [clean_of_stack (head_append_of_bare bare inFolder), clean_of_stack bare.1, stackOf_slashes]

variable {after : Nat}

theorem gcs_search_folder (inFolder : trimSlashes path ≠ [])
    (shape : cutStart slash path = trimSlashes path ++ List.replicate after '/') :
    (gcs path).search = clean (trimSlashes path) ++ slash := by
  have solid := solid_clean (bare_folder path).1
  rw [gcs_search, if_neg (by simp [shape, inFolder]), shape, clean_folder inFolder, withSlash,
    if_pos ⟨solid.ne_nil, solid.bare.2⟩]

/-- The object that the path of an object leads to. -/
theorem gcs_back (inFolder : trimSlashes path ≠ [])
    (shape : cutStart slash path = trimSlashes path ++ List.replicate after '/') {rest : List Char}
    (solid : Solid (trimSlashes path ++ '/' :: rest)) :
    (gcs path).objectName ((gcs path).entryPath (trimSlashes path ++ '/' :: rest)) =
      if cutStart slash path = trimSlashes path then clean (trimSlashes path ++ '/' :: rest)
      else clean (trimSlashes path ++ '/' :: (trimSlashes path ++ '/' :: rest)) := by
  show join (cutStart slash path)
    (cutStart slash (cutStart (cutStart slash path ++ slash) (trimSlashes path ++ '/' :: rest))) = _
  by_cases noSlashes : cutStart slash path = trimSlashes path
  · have restSolid := (solid_append_slash.mp solid).2
    rw [if_pos noSlashes, noSlashes, cutStart_folder, cutStart_slash_of_head restSolid.bare.1,
      join_of_ne inFolder restSolid.ne_nil]
  · have notEmpty : cutStart slash path ≠ [] := by simp [shape, inFolder]
    rw [if_neg noSlashes, entryPath_of_slashes solid (.inl noSlashes),
      cutStart_slash_of_head solid.bare.1, join_of_ne notEmpty solid.ne_nil, shape,
      clean_folder_append inFolder]

theorem gcs_fits_folder (inFolder : trimSlashes path ≠ [])
    (shape : cutStart slash path = trimSlashes path ++ List.replicate after '/') {name : List Char}
    (solid : Solid name) : (gcs path).Fits path name ↔
      ((trimSlashes path ++ slash <+: name ∨ clean (trimSlashes path) ++ slash <+: name) →
        trimSlashes path ++ slash <+: name ∧ clean name = name ∧
          (cutStart slash path = trimSlashes path ∨
            clean (trimSlashes path ++ '/' :: trimSlashes path) = trimSlashes path)) := by
  have head := (bare_folder path).1
  have found : ((gcs path).search.isPrefixOf name && !(gcs path).leavesOut name) = true ↔
      clean (trimSlashes path) ++ slash <+: name := by
    rw [gcs_found, gcs_search_folder inFolder shape]
    exact and_iff_left (ne_slash_end solid)
  have isBelow : below path name = true ↔ trimSlashes path ++ slash <+: name := by
    simp [below, inFolder]
  unfold KeyScheme.Fits
  rw [Bool.eq_iff_iff, found, isBelow]
  constructor
  · rintro ⟨same, back⟩ either
    have inside : trimSlashes path ++ slash <+: name := either.elim id same.mp
    obtain ⟨rest, rfl⟩ := (below_iff inFolder).mp (isBelow.mpr inside)
    have again := back inside
    rw [gcs_back inFolder shape solid] at again
    by_cases noSlashes : cutStart slash path = trimSlashes path
    · rw [if_pos noSlashes] at again
      exact ⟨inside, again, .inl noSlashes⟩
    · rw [if_neg noSlashes] at again
      have doubledHead := @head_append_of_bare _ ('/' :: (trimSlashes path ++ '/' :: rest))
        (bare_folder path) inFolder
      have cleaned := clean_clean doubledHead
      rw [again] at cleaned
      exact ⟨inside, cleaned, .inr ((clean_doubled head inFolder cleaned).mp again)⟩
  · intro fits
    refine ⟨⟨fun isFound => (fits (.inr isFound)).1, fun inside => ?_⟩, fun inside => ?_⟩
    · obtain ⟨-, cleaned, -⟩ := fits (.inl inside)
      obtain ⟨rest, rfl⟩ := (below_iff inFolder).mp (isBelow.mpr inside)
      have normal := (normal_of_clean head inFolder cleaned).append.1
      rwa [clean_of_normal normal]
    · obtain ⟨-, cleaned, slashes⟩ := fits (.inl inside)
      obtain ⟨rest, rfl⟩ := (below_iff inFolder).mp (isBelow.mpr inside)
      rw [gcs_back inFolder shape solid]
      by_cases noSlashes : cutStart slash path = trimSlashes path
      · rw [if_pos noSlashes, cleaned]
      · rw [if_neg noSlashes]
        exact (clean_doubled head inFolder cleaned).mpr (slashes.resolve_left noSlashes)

end Folder

theorem gcs_fits_iff (solid : Solid name) : (gcs path).Fits path name ↔ GcsFits path name := by
  unfold GcsFits
  by_cases rooted : (cutStart slash path).head? = some '/'
  · rw [if_pos rooted]
    exact gcs_fits_rooted solid rooted
  rw [if_neg rooted]
  obtain ⟨before, after, shape⟩ := folder_shape path
  cases before with
  | succ before =>
    rw [shape] at rooted
    exact absurd rfl rooted
  | zero =>
    rw [List.replicate_zero, List.nil_append] at shape
    by_cases root : trimSlashes path = []
    · have empty : cutStart slash path = [] := by
        cases after with
        | zero => rw [shape, root]; rfl
        | succ after =>
          rw [shape, root] at rooted
          exact absurd rfl rooted
      rw [if_pos root]
      exact gcs_fits_root solid empty
    · rw [if_neg root]
      exact gcs_fits_folder root shape solid

end DbBackup.Storage.Backends
