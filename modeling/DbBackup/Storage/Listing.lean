import DbBackup.Storage.Keys

/-!
Owns which storages list their own objects under usable names, those of WebDAV
included: `List("")` returns the objects below the configured path, and each
returned path leads back to its object.

Contract: `listsOwn_iff`. WebDAV does not decode the hrefs of an answer and
compares them with URLs, so that a server that answers with absolute paths is
listed well at its root only, and a server that answers with full URLs below a
path that needs no encoding.
-/

set_option linter.all false

namespace DbBackup.Storage.Backends

open Lib.Percent Lib.SlashPath

/-! ### The answer -/

/-- What `List("")` returns are the objects below the path, and each returned
path leads back to its object. -/
structure DavLists (server : DavServer) (path collection : List Char) : Prop where
  requested : DavServer.Requests (join (DavServer.folder path) []) collection
  exact : (server.listed path (server.response collection)).map Prod.fst =
    (server.objects.filter (below path)).map .object
  addresses : ∀ name rel, (.object name, rel) ∈ server.listed path (server.response collection) →
    DavServer.Requests (DavServer.davPath path rel) name

def isDirect (collection name : List Char) : Bool :=
  decide (memberOf collection name = some (.object name))

theorem exact_iff (server : DavServer) (path collection : List Char) :
    (server.listed path (server.response collection)).map Prod.fst =
        (server.objects.filter (below path)).map .object ↔
      (∀ sub, .collection sub ∈ server.response collection →
        server.entry path (.collection sub) = none) ∧
      ∀ name ∈ server.objects,
        (isDirect collection name && (server.entry path (.object name)).isSome) =
          below path name := by
  have kept : (server.listed path (server.response collection)).map Prod.fst =
      (server.response collection).filter fun item => (server.entry path item).isSome := by
    unfold DavServer.listed
    induction server.response collection with
    | nil => rfl
    | cons item items ih =>
      cases entry : server.entry path item with
      | none => simp [entry, ih]
      | some rel => simp [entry, ih]
  have objects : ((server.response collection).filter fun item =>
      (server.entry path item).isSome).filter Resource.isObject =
        (server.objects.filter fun name =>
          isDirect collection name && (server.entry path (.object name)).isSome).map .object := by
    have direct := server.objectsListed collection
    rw [List.filter_filter, List.filter_congr fun item _ => Bool.and_comm _ _,
      ← List.filter_filter]
    unfold DavServer.response
    rw [List.filter_cons_of_neg (by simp [Resource.isObject]), direct, List.filter_map,
      List.filter_filter]
    congr 1
    exact List.filter_congr fun name _ => Bool.and_comm _ _
  rw [kept]
  constructor
  · intro exact
    refine ⟨fun sub member => ?_, fun name member => ?_⟩
    · by_contra isKept
      have inKept : .collection sub ∈ (server.response collection).filter fun item =>
          (server.entry path item).isSome :=
        List.mem_filter.mpr ⟨member, Option.isSome_iff_ne_none.mpr isKept⟩
      rw [exact] at inKept
      obtain ⟨name, -, same⟩ := List.mem_map.mp inKept
      cases same
    · have all : ((server.objects.filter (below path)).map Resource.object).filter
          Resource.isObject = (server.objects.filter (below path)).map Resource.object := by
        apply List.filter_eq_self.mpr
        intro item inMap
        obtain ⟨other, -, rfl⟩ := List.mem_map.mp inMap
        rfl
      rw [exact, all] at objects
      have same := List.map_injective_iff.mpr (fun a b => Resource.object.inj) objects
      have inBoth := congrArg (name ∈ ·) same
      rw [eq_iff_iff, List.mem_filter, List.mem_filter] at inBoth
      apply Bool.eq_iff_iff.mpr
      exact ⟨fun found => (inBoth.mpr ⟨member, found⟩).2, fun found => (inBoth.mp ⟨member, found⟩).2⟩
  · rintro ⟨collections, names⟩
    have onlyObjects : ((server.response collection).filter fun item =>
        (server.entry path item).isSome).filter Resource.isObject =
          (server.response collection).filter fun item => (server.entry path item).isSome := by
      apply List.filter_eq_self.mpr
      intro item inKept
      obtain ⟨member, isKept⟩ := List.mem_filter.mp inKept
      cases item with
      | object name => rfl
      | collection sub =>
        rw [collections sub member] at isKept
        cases isKept
    rw [← onlyObjects, objects]
    exact congrArg _ (List.filter_congr names)

/-! ### Members -/

def memberStart (collection : List Char) : List Char :=
  if collection = [] then [] else collection ++ slash

theorem memberOf_append (collection rest : List Char) :
    memberOf collection (memberStart collection ++ rest) =
      if '/' ∈ rest then some (.collection (memberStart collection ++ rest.takeWhile (· ≠ '/')))
      else some (.object (memberStart collection ++ rest)) := by
  unfold memberOf memberStart
  simp

theorem memberOf_elsewhere {collection name : List Char}
    (other : ¬ memberStart collection <+: name) : memberOf collection name = none := by
  unfold memberOf
  exact if_neg (by rwa [List.isPrefixOf_iff_prefix])

theorem isDirect_iff {collection name : List Char} :
    isDirect collection name = true ↔
      ∃ rest, name = memberStart collection ++ rest ∧ '/' ∉ rest := by
  unfold isDirect
  rw [decide_eq_true_eq]
  by_cases starts : memberStart collection <+: name
  · obtain ⟨rest, rfl⟩ := starts
    rw [memberOf_append]
    by_cases nested : '/' ∈ rest
    · simp [nested]
    · simp [nested]
  · rw [memberOf_elsewhere starts]
    constructor
    · intro absurd
      cases absurd
    · rintro ⟨rest, rfl, -⟩
      exact absurd ⟨rest, rfl⟩ starts

/-! ### Encoded names -/

section Encoded

variable {server : DavServer}

theorem mem_href_ne {text : List Char} {c : Char} (member : c ∈ escape server.keep text) :
    c ≠ '?' ∧ c ≠ '#' := by
  rcases mem_escape member with ⟨-, kept⟩ | inCode
  · constructor
    · rintro rfl
      rw [server.keeps.2.2.1] at kept
      cases kept
    · rintro rfl
      rw [server.keeps.2.2.2] at kept
      cases kept
  · have codes : "%0123456789ABCDEF".toList.all (fun c => c ≠ '?' && c ≠ '#') = true := by decide
    simpa using List.all_eq_true.mp codes c inCode

theorem slash_not_mem_escape {text : List Char} (noSlash : '/' ∉ text) :
    '/' ∉ escape server.keep text := by
  intro member
  rcases mem_escape member with ⟨inText, -⟩ | inCode
  · exact noSlash inText
  · exact absurd inCode (by decide)

theorem escape_inj {first second : List Char}
    (same : escape server.keep first = escape server.keep second) : first = second := by
  have decoded := congrArg unescape same
  rw [unescape_escape server.keeps.2.1, unescape_escape server.keeps.2.1, Option.some.injEq,
    bytes_inj] at decoded
  exact decoded

theorem isName_escape {segment : List Char} (name : IsName segment) :
    IsName (escape server.keep segment) := by
  have decoded := unescape_escape server.keeps.2.1 segment
  refine ⟨fun empty => name.1 ?_, fun dot => name.2.1 ?_, fun dots => name.2.2 ?_⟩
  · rw [empty, show unescape [] = some (bytes []) from rfl] at decoded
    exact (bytes_inj.mp (Option.some.inj decoded)).symm
  · rw [dot, show unescape ['.'] = some (bytes ['.']) by decide] at decoded
    exact (bytes_inj.mp (Option.some.inj decoded)).symm
  · rw [dots, show unescape ['.', '.'] = some (bytes ['.', '.']) by decide] at decoded
    exact (bytes_inj.mp (Option.some.inj decoded)).symm

theorem ofNames_of_segment {segment : List Char} (noSlash : '/' ∉ segment) :
    OfNames segment ↔ IsName segment := by
  unfold OfNames
  rw [List.splitOn_eq_singleton noSlash]
  simp

theorem isControl_escape {text : List Char} {c : Char} (member : c ∈ escape server.keep text) :
    isControl c = false := by
  rcases mem_escape member with ⟨-, kept⟩ | inCode
  · by_contra control
    rw [server.noControls c (by simpa using control)] at kept
    cases kept
  · have codes : "%0123456789ABCDEF".toList.all (fun c => !isControl c) = true := by decide
    simpa using List.all_eq_true.mp codes c inCode

/-- An encoded name is a request for the name. -/
theorem requests_escape {name : List Char} (names : name = [] ∨ OfNames name) :
    DavServer.Requests (escape server.keep name) name := by
  have whole : (escape server.keep name).takeWhile (fun c => c ≠ '?' ∧ c ≠ '#') =
      escape server.keep name := by
    apply List.takeWhile_eq_self_iff.mpr
    intro c member
    simpa using mem_href_ne member
  refine ⟨fun c member => isControl_escape member, ?_, names⟩
  rw [whole, unescape_escape server.keeps.2.1]

theorem escape_slash (first second : List Char) :
    escape server.keep (first ++ '/' :: second) =
      escape server.keep first ++ '/' :: escape server.keep second := by
  rw [escape_append]
  congr 1
  show escapeChar server.keep '/' ++ escape server.keep second = _
  rw [escapeChar, if_pos server.keeps.1]
  rfl

/-- The names of a path, encoded, are names. -/
theorem ofNames_escape {name : List Char} (names : OfNames name) :
    OfNames (escape server.keep name) := by
  induction length : name.length using Nat.strong_induction_on generalizing name with
  | _ length ih =>
    by_cases nested : '/' ∈ name
    · obtain ⟨first, rest, rfl⟩ := List.append_of_mem nested
      obtain ⟨firstNames, restNames⟩ := ofNames_append_slash.mp names
      rw [List.length_append, List.length_cons] at length
      rw [escape_slash, ofNames_append_slash]
      exact ⟨ih first.length (by omega) firstNames rfl,
        ih rest.length (by omega) restNames rfl⟩
    · rw [ofNames_of_segment (slash_not_mem_escape nested)]
      exact isName_escape ((ofNames_of_segment nested).mp names)

theorem folder_eq (path : List Char) : DavServer.folder path = trimSlashes path :=
  trimSlashes_cutStart path

end Encoded

/-! ### Addresses -/

theorem trimRight_of_last {text : List Char} (last : text.getLast? ≠ some '/') :
    DavServer.trimRight text = text := by
  unfold DavServer.trimRight
  rw [List.rdropWhile_eq_self_iff]
  intro notEmpty isSlash
  apply last
  rw [List.getLast?_eq_some_getLast notEmpty, decide_eq_true_eq.mp isSlash]

theorem trimRight_append_slash (text : List Char) :
    DavServer.trimRight (text ++ slash) = DavServer.trimRight text :=
  List.rdropWhile_concat_pos _ _ _ (by simp)

section Addresses

variable (server : DavServer) (path : List Char)

theorem baseURL_head : ∃ c rest, c ≠ '/' ∧ server.baseURL = c :: rest := by
  obtain ⟨notEmpty, head, -⟩ := server.absolute
  cases origin : server.origin with
  | nil => exact absurd origin notEmpty
  | cons c rest =>
    refine ⟨c, rest ++ server.root, ?_, by simp [DavServer.baseURL, origin]⟩
    simpa [origin] using head

theorem baseURL_last : server.baseURL.getLast? ≠ some '/' := by
  obtain ⟨notEmpty, -, last⟩ := server.absolute
  unfold DavServer.baseURL
  rcases server.rooted with root | ⟨-, rootLast⟩
  · rwa [root, List.append_nil]
  · rw [List.getLast?_append]
    cases found : server.root.getLast? with
    | none => simpa using last
    | some c =>
      rw [found] at rootLast
      simpa using rootLast

theorem baseURL_stack : stackOf server.baseURL ≠ [] := by
  obtain ⟨c, rest, notSlash, shape⟩ := baseURL_head server
  have stack : stackOf server.baseURL =
      ((server.baseURL.splitOn '/').filter (· ≠ [])).reverse ++ [] :=
    foldl_cleanStep_dotless false server.dotless []
  rw [stack, List.append_nil, ne_eq, List.reverse_eq_nil_iff, List.filter_eq_nil_iff]
  intro empty
  obtain ⟨head, tail, -, segments⟩ :=
    @DbBackup.Lib.Delimited.splitOnP_cons_other _ (· == '/') c (by simpa using notSlash) rest
  have first : c :: head ∈ server.baseURL.splitOn '/' := by
    rw [shape, List.splitOn, segments]
    exact List.mem_cons_self
  exact empty _ first (by simp)

/-- The address of a resource, with no slash behind it. -/
def place (text : List Char) : List Char :=
  if text = [] then server.baseURL else server.baseURL ++ '/' :: text

theorem place_inj {first second : List Char} (same : place server first = place server second) :
    first = second := by
  unfold place at same
  by_cases empty : first = []
  · by_cases alsoEmpty : second = []
    · rw [empty, alsoEmpty]
    · simp [empty, alsoEmpty] at same
  · by_cases alsoEmpty : second = []
    · simp [empty, alsoEmpty] at same
    · simpa [empty, alsoEmpty] using same

theorem trimRight_place {text : List Char} (last : text.getLast? ≠ some '/') :
    DavServer.trimRight (server.baseURL ++ '/' :: text) = place server text := by
  unfold place
  cases text with
  | nil =>
    rw [if_pos rfl]
    exact (trimRight_append_slash _).trans (trimRight_of_last (baseURL_last server))
  | cons c rest =>
    rw [if_neg (List.cons_ne_nil _ _)]
    apply trimRight_of_last
    rwa [List.getLast?_append_of_ne_nil _ (List.cons_ne_nil _ _),
      List.getLast?_cons_of_ne_nil (List.cons_ne_nil _ _)]

/-- The path of the request for the list. -/
def requestPath : List Char := join (trimSlashes path) []

theorem requestPath_root {path : List Char} (root : trimSlashes path = []) :
    requestPath path = [] := by
  rw [requestPath, root]
  rfl

theorem requestPath_folder {path : List Char} (inFolder : trimSlashes path ≠ []) :
    requestPath path = clean (trimSlashes path) :=
  join_nil_right inFolder

theorem requestPath_last : (requestPath path).getLast? ≠ some '/' := by
  by_cases root : trimSlashes path = []
  · simp [requestPath_root root]
  · rw [requestPath_folder root]
    exact (solid_clean (bare_folder path).1).bare.2

theorem length_requestPath_le {path : List Char} (inFolder : trimSlashes path ≠ []) :
    (requestPath path).length ≤ (trimSlashes path).length := by
  rw [requestPath_folder inFolder]
  exact length_clean_le (bare_folder path).1 inFolder

/-- What is left of an href when the address of the folder is cut off. -/
def relative (href : List Char) : List Char :=
  cutStart slash (cutStart (server.baseURL ++ '/' :: (trimSlashes path ++ slash)) href)

theorem entry_eq (item : Resource) : server.entry path item =
    if DavServer.trimRight (server.href item) = place server (requestPath path) then none
    else if relative server path (server.href item) = [] then none
    else some (relative server path (server.href item)) := by
  have url : DavServer.trimRight (server.baseURL ++ slash ++ join (DavServer.folder path) [] ++
      slash) = place server (requestPath path) := by
    rw [trimRight_append_slash, folder_eq, List.append_assoc]
    exact trimRight_place server (requestPath_last path)
  have base : server.baseURL ++ slash ++ DavServer.folder path ++ slash =
      server.baseURL ++ '/' :: (trimSlashes path ++ slash) := by
    rw [folder_eq]
    simp [slash]
  unfold DavServer.entry relative
  dsimp only
  rw [url, base]

end Addresses

theorem mem_members_object {server : DavServer} {collection name : List Char} :
    .object name ∈ server.members collection ↔
      name ∈ server.objects ∧ isDirect collection name = true := by
  have isObject : .object name ∈ server.members collection ↔
      .object name ∈ (server.members collection).filter Resource.isObject := by
    rw [List.mem_filter]
    exact (and_iff_left rfl).symm
  rw [isObject, server.objectsListed, List.mem_map_of_injective fun first second =>
    Resource.object.inj, List.mem_filter]
  rfl

theorem mem_listed {server : DavServer} {path collection name rel : List Char} :
    (.object name, rel) ∈ server.listed path (server.response collection) ↔
      name ∈ server.objects ∧ isDirect collection name = true ∧
        server.entry path (.object name) = some rel := by
  rw [← and_assoc, ← mem_members_object]
  constructor
  · intro member
    obtain ⟨item, inResponse, isEntry⟩ := List.mem_filterMap.mp member
    obtain ⟨found, entry, same⟩ := Option.map_eq_some_iff.mp isEntry
    cases same
    rcases List.mem_cons.mp inResponse with absurd | inMembers
    · cases absurd
    · exact ⟨inMembers, entry⟩
  · rintro ⟨inMembers, entry⟩
    exact List.mem_filterMap.mpr ⟨_, List.mem_cons_of_mem _ inMembers, by rw [entry]; rfl⟩

/-- A resource of the answer that is a collection is the collection itself, or
holds an object of the server. -/
theorem mem_response_collection {server : DavServer} {collection sub : List Char} :
    .collection sub ∈ server.response collection ↔ sub = collection ∨
      ∃ rest, memberStart collection ++ rest ∈ server.objects ∧ '/' ∈ rest ∧
        sub = memberStart collection ++ rest.takeWhile (· ≠ '/') := by
  unfold DavServer.response
  rw [List.mem_cons, Resource.collection.injEq, server.collectionsListed]
  apply or_congr_right
  constructor
  · rintro ⟨name, stored, member⟩
    by_cases starts : memberStart collection <+: name
    · obtain ⟨rest, rfl⟩ := starts
      rw [memberOf_append] at member
      by_cases nested : '/' ∈ rest
      · rw [if_pos nested, Option.some.injEq, Resource.collection.injEq] at member
        exact ⟨rest, stored, nested, member.symm⟩
      · rw [if_neg nested] at member
        cases member
    · rw [memberOf_elsewhere starts] at member
      cases member
  · rintro ⟨rest, stored, nested, rfl⟩
    exact ⟨_, stored, by rw [memberOf_append, if_pos nested]⟩

/-! ### Absolute paths -/

section AbsolutePath

variable {server : DavServer} (path : List Char)

theorem entry_absolute {item : Resource} {rest : List Char}
    (shape : server.href item = '/' :: rest) :
    server.entry path item = if rest = [] then none else some rest := by
  obtain ⟨c, base, notSlash, baseShape⟩ := baseURL_head server
  have differs : DavServer.trimRight (server.href item) ≠ place server (requestPath path) := by
    intro same
    have starts : DavServer.trimRight (server.href item) <+: '/' :: rest := by
      rw [← shape]
      exact List.rdropWhile_prefix _ _
    have head : ∃ more, place server (requestPath path) = c :: more := by
      unfold place
      split
      · exact ⟨_, baseShape⟩
      · exact ⟨_, by rw [baseShape, List.cons_append]⟩
    obtain ⟨more, placeShape⟩ := head
    rw [same, placeShape] at starts
    exact notSlash (List.cons_prefix_cons.mp starts).1
  have uncut : cutStart (server.baseURL ++ '/' :: (trimSlashes path ++ slash)) (server.href item) =
      '/' :: rest := by
    rw [shape, baseShape]
    apply cutStart_of_not_prefix
    exact fun starts => notSlash (List.cons_prefix_cons.mp starts).1
  have relativeShape : relative server path (server.href item) = rest := by
    rw [relative, uncut]
    exact cutStart_append slash rest
  rw [entry_eq, if_neg differs, relativeShape]

theorem href_absolute (form : server.form = .absolutePath) (item : Resource)
    (named : item ≠ .object []) : ∃ rest, server.href item = '/' :: rest ∧
      (rest = [] ↔ server.root = [] ∧ item = .collection []) := by
  have base : server.hrefBase = server.root := by
    simp [DavServer.hrefBase, form]
  have escaped {name : List Char} (notEmpty : name ≠ []) : escape server.keep name ≠ [] :=
    fun empty => notEmpty (@escape_inj server name [] empty)
  have tail : ∃ more, server.href item = server.root ++ '/' :: more ∧
      (more = [] ↔ item = .collection []) := by
    cases item with
    | collection name =>
      by_cases empty : name = []
      · exact ⟨[], by simp [DavServer.href, base, empty, slash], by simp [empty]⟩
      · exact ⟨escape server.keep name ++ slash,
          by simp [DavServer.href, base, empty, slash], by simp [empty, slash]⟩
    | object name =>
      have notEmpty : name ≠ [] := fun empty => named (by rw [empty])
      exact ⟨escape server.keep name, by simp [DavServer.href, base, slash],
        by simp [escaped notEmpty]⟩
  obtain ⟨more, shape, empty⟩ := tail
  rcases server.rooted with root | ⟨head, -⟩
  · exact ⟨more, by rw [shape, root]; rfl, by rw [empty]; simp [root]⟩
  · obtain ⟨rest, rootShape⟩ := List.head?_eq_some_iff.mp head
    exact ⟨rest ++ '/' :: more, by rw [shape, rootShape]; rfl, by simp [rootShape]⟩

theorem entry_absolute_none (form : server.form = .absolutePath) {item : Resource}
    (named : item ≠ .object []) :
    server.entry path item = none ↔ server.root = [] ∧ item = .collection [] := by
  obtain ⟨rest, shape, empty⟩ := href_absolute form item named
  rw [entry_absolute path shape, ← empty]
  simp

/-- A server that answers with absolute paths is listed well where its root is
that of the host and all its objects are in it. -/
theorem dav_absolute_iff (form : server.form = .absolutePath) :
    (∃ collection, DavLists server path collection) ↔
      server.root = [] ∧ DavServer.Requests (requestPath path) [] ∧
        ∀ name ∈ server.objects, trimSlashes path = [] ∧ '/' ∉ name := by
  have named {name : List Char} (stored : name ∈ server.objects) : Resource.object name ≠ .object [] := by
    intro same
    cases same
    exact (server.named [] stored).solid.ne_nil rfl
  constructor
  · rintro ⟨collection, lists⟩
    obtain ⟨collections, objects⟩ := (exact_iff server path collection).mp lists.exact
    have itself := collections collection (mem_response_collection.mpr (.inl rfl))
    obtain ⟨root, same⟩ := (entry_absolute_none path form (by rintro ⟨⟩)).mp itself
    cases same
    have requested := lists.requested
    rw [folder_eq] at requested
    refine ⟨root, requested, fun name stored => ?_⟩
    have flat : '/' ∉ name := by
      intro nested
      have sub := collections _ (mem_response_collection.mpr (.inr ⟨name, stored, nested, rfl⟩))
      obtain ⟨-, empty⟩ := (entry_absolute_none path form (by rintro ⟨⟩)).mp sub
      have noStart : name.takeWhile (· ≠ '/') = [] := Resource.collection.inj empty
      have solid := (server.named name stored).solid
      cases shape : name with
      | nil => exact solid.ne_nil shape
      | cons c rest =>
        have head : c ≠ '/' := by simpa [shape] using solid.bare.1
        rw [shape, List.takeWhile_cons_of_pos (by simpa using head)] at noStart
        cases noStart
    refine ⟨?_, flat⟩
    by_contra inFolder
    have direct : isDirect [] name = true := isDirect_iff.mpr ⟨name, rfl, flat⟩
    have hasEntry : (server.entry path (.object name)).isSome = true := by
      rw [Option.isSome_iff_ne_none]
      intro absent
      obtain ⟨-, same⟩ := (entry_absolute_none path form (named stored)).mp absent
      cases same
    have isBelow := objects name stored
    rw [direct, hasEntry] at isBelow
    obtain ⟨rest, rfl⟩ := (below_iff inFolder).mp isBelow.symm
    exact flat (by simp)
  · rintro ⟨root, requested, objects⟩
    refine ⟨[], ?_, (exact_iff server path []).mpr ⟨?_, ?_⟩, ?_⟩
    · rwa [folder_eq]
    · intro sub member
      rw [entry_absolute_none path form (by rintro ⟨⟩)]
      rcases mem_response_collection.mp member with rfl | ⟨rest, stored, nested, -⟩
      · exact ⟨root, rfl⟩
      · exact absurd nested (objects rest stored).2
    · intro name stored
      obtain ⟨noFolder, flat⟩ := objects name stored
      have direct : isDirect [] name = true := isDirect_iff.mpr ⟨name, rfl, flat⟩
      have hasEntry : server.entry path (.object name) ≠ none := by
        intro absent
        obtain ⟨-, same⟩ := (entry_absolute_none path form (named stored)).mp absent
        cases same
      rw [direct, Option.isSome_iff_ne_none.mpr hasEntry, below_root noFolder]
      rfl
    · intro name rel member
      obtain ⟨stored, -, entry⟩ := mem_listed.mp member
      obtain ⟨noFolder, flat⟩ := objects name stored
      have names := server.named name stored
      have shape : server.href (.object name) = '/' :: escape server.keep name := by
        simp [DavServer.href, DavServer.hrefBase, form, root, slash]
      have encoded : OfNames (escape server.keep name) := ofNames_escape names
      rw [entry_absolute path shape, if_neg encoded.solid.ne_nil, Option.some.injEq] at entry
      rw [DavServer.davPath, folder_eq, noFolder, ← entry, join_nil_left encoded.solid.ne_nil,
        clean_of_names encoded]
      exact requests_escape (.inr names)

end AbsolutePath

/-! ### Full URLs -/

section FullURL

variable {server : DavServer} (path : List Char)

theorem href_collection (form : server.form = .fullURL) (name : List Char) :
    server.href (.collection name) = server.baseURL ++
      '/' :: (if name = [] then [] else escape server.keep name ++ slash) := by
  by_cases empty : name = []
  · simp [DavServer.href, DavServer.hrefBase, form, empty, slash]
  · simp [DavServer.href, DavServer.hrefBase, form, empty, slash]

theorem href_object (form : server.form = .fullURL) (name : List Char) :
    server.href (.object name) = server.baseURL ++ '/' :: escape server.keep name := by
  simp [DavServer.href, DavServer.hrefBase, form, slash]

theorem escape_last {name : List Char} (names : name = [] ∨ OfNames name) :
    (escape server.keep name).getLast? ≠ some '/' := by
  rcases names with rfl | names
  · exact fun absurd => by cases absurd
  · exact (ofNames_escape names).solid.bare.2

/-- An href outside the folder stays as it is, one inside leaves what is behind the
folder. -/
theorem relative_outside {rest : List Char} (outside : ¬ trimSlashes path ++ slash <+: rest) :
    relative server path (server.baseURL ++ '/' :: rest) = server.baseURL ++ '/' :: rest := by
  obtain ⟨c, more, notSlash, shape⟩ := baseURL_head server
  have uncut : cutStart (server.baseURL ++ '/' :: (trimSlashes path ++ slash))
      (server.baseURL ++ '/' :: rest) = server.baseURL ++ '/' :: rest := by
    apply cutStart_of_not_prefix
    intro starts
    exact outside (List.cons_prefix_cons.mp ((List.prefix_append_right_inj _).mp starts)).2
  rw [relative, uncut, cutStart_slash_of_head]
  rw [shape]
  simpa using notSlash

theorem relative_inside (rest : List Char) :
    relative server path (server.baseURL ++ '/' :: (trimSlashes path ++ '/' :: rest)) =
      cutStart slash rest := by
  have shape : server.baseURL ++ '/' :: (trimSlashes path ++ '/' :: rest) =
      server.baseURL ++ '/' :: (trimSlashes path ++ slash) ++ rest := by
    simp [slash]
  rw [relative, shape, cutStart_append]

/-- Nothing is left only of the address of the folder, with a slash or two behind
it. -/
theorem relative_eq_nil {rest : List Char}
    (empty : relative server path (server.baseURL ++ '/' :: rest) = []) :
    rest = trimSlashes path ++ slash ∨ rest = trimSlashes path ++ slash ++ slash := by
  by_cases inside : trimSlashes path ++ slash <+: rest
  · obtain ⟨more, rfl⟩ := inside
    have shape : trimSlashes path ++ slash ++ more = trimSlashes path ++ '/' :: more := by
      simp [slash]
    rw [shape, relative_inside] at empty
    rcases cutStart_cases slash more with isSlash | ⟨-, same⟩
    · rw [empty, List.append_nil] at isSlash
      exact .inr (by rw [isSlash])
    · rw [same] at empty
      exact .inl (by rw [empty, List.append_nil])
  · rw [relative_outside path inside] at empty
    simp at empty

/-- The collection that is passed over is the one whose encoded name is the path of
the request. -/
theorem entry_collection_none (form : server.form = .fullURL) {name : List Char} (names : name = [] ∨ OfNames name) :
    server.entry path (.collection name) = none ↔
      escape server.keep name = requestPath path := by
  have last := @escape_last server _ names
  have trimmed : DavServer.trimRight (server.href (.collection name)) =
      place server (escape server.keep name) := by
    rw [href_collection form]
    by_cases empty : name = []
    · rw [if_pos empty, empty]
      exact trimRight_place server (by simp)
    · rw [if_neg empty, ← List.cons_append, ← List.append_assoc, trimRight_append_slash]
      exact trimRight_place server last
  rw [entry_eq, trimmed]
  constructor
  · intro passed
    by_contra differs
    rw [if_neg fun same => differs (place_inj server same)] at passed
    have empty : relative server path (server.href (.collection name)) = [] := by
      by_contra notEmpty
      rw [if_neg notEmpty] at passed
      cases passed
    rw [href_collection form] at empty
    rcases names with rfl | names
    · rcases relative_eq_nil path empty with absurd | absurd
      · simp [slash] at absurd
      · simp [slash] at absurd
    · rw [if_neg names.solid.ne_nil] at empty
      rcases relative_eq_nil path empty with isFolder | absurd
      · have encoded : OfNames (escape server.keep name) := ofNames_escape names
        have same := List.append_cancel_right isFolder
        rw [same] at encoded differs
        rw [requestPath_folder encoded.solid.ne_nil, clean_of_names encoded] at differs
        exact differs rfl
      · have same := List.append_cancel_right absurd
        rw [same] at last
        exact last (by simp [slash])
  · intro same
    rw [same, if_pos rfl]

theorem entry_object (form : server.form = .fullURL) {name : List Char} (names : OfNames name)
    (differs : escape server.keep name ≠ requestPath path) :
    server.entry path (.object name) =
      some (relative server path (server.baseURL ++ '/' :: escape server.keep name)) := by
  have last := @escape_last server _ (.inr names)
  rw [entry_eq, href_object form, trimRight_place server last,
    if_neg fun same => differs (place_inj server same), if_neg]
  intro empty
  rcases relative_eq_nil path empty with same | same
  · exact last (by simp [same, slash])
  · exact last (by simp [same, slash])

theorem ne_memberStart_append {collection rest : List Char}
    (names : OfNames (memberStart collection ++ rest)) : memberStart collection ++ rest ≠ collection := by
  intro same
  by_cases root : collection = []
  · rw [root] at same
    rw [root, same] at names
    exact names.solid.ne_nil rfl
  · have lengths := congrArg List.length same
    rw [memberStart, if_neg root, List.length_append, List.length_append, slash,
      List.length_singleton] at lengths
    omega

/-- The beginning of a path of names, up to a slash behind one. -/
theorem ofNames_takeWhile {start rest : List Char} (names : OfNames (start ++ rest))
    (nested : '/' ∈ rest) : OfNames (start ++ rest.takeWhile (· ≠ '/')) := by
  have shape := @List.takeWhile_append_dropWhile _ (fun c => decide (c ≠ '/')) rest
  cases tail : rest.dropWhile (fun c => decide (c ≠ '/')) with
  | nil =>
    rw [List.dropWhile_eq_nil_iff] at tail
    exact absurd (tail '/' nested) (by decide)
  | cons c more =>
    have isSlash : c = '/' := by
      have head := List.head?_dropWhile_not (fun c => decide (c ≠ '/')) rest
      rw [tail] at head
      simpa using head
    rw [tail, isSlash] at shape
    rw [← shape, ← List.append_assoc] at names
    exact (ofNames_append_slash.mp names).1

/-- The collection that holds an object of the folder directly is the folder: its
encoded name is at most as long as the folder, and at least as long as its name. -/
theorem collection_eq_folder {collection rest : List Char} (inFolder : trimSlashes path ≠ [])
    (requested : escape server.keep collection = requestPath path) (flat : '/' ∉ rest)
    (isBelow : below path (memberStart collection ++ rest) = true) :
    collection = trimSlashes path := by
  obtain ⟨more, shape⟩ := (below_iff inFolder).mp isBelow
  by_cases root : collection = []
  · rw [memberStart, if_pos root, List.nil_append] at shape
    exact absurd (by simp [shape]) flat
  have whole : collection ++ '/' :: rest = trimSlashes path ++ '/' :: more := by
    rw [← shape, memberStart, if_neg root, List.append_assoc]
    rfl
  rcases List.append_eq_append_iff.mp whole with ⟨middle, isFolder, tail⟩ | ⟨middle, isCollection, -⟩
  · cases middle with
    | nil => rw [isFolder, List.append_nil]
    | cons c others =>
      have inRest : rest = others ++ '/' :: more := (List.cons.inj tail).2
      exact absurd (by simp [inRest]) flat
  · have encoded := length_le_escape server.keep collection
    have shorter := length_requestPath_le inFolder
    rw [requested] at encoded
    have lengths := congrArg List.length isCollection
    rw [List.length_append] at lengths
    have empty : middle = [] := List.length_eq_zero_iff.mp (by omega)
    rw [isCollection, empty, List.append_nil]

/-- Where no folder is configured, the path of an object is its whole address, and
leads elsewhere. -/
theorem not_requests_address {name : List Char} (flat : '/' ∉ name) (names : OfNames name) :
    ¬ DavServer.Requests (join [] (server.baseURL ++ '/' :: escape server.keep name)) name := by
  obtain ⟨c, rest, notSlash, shape⟩ := baseURL_head server
  have head : server.baseURL.head? ≠ some '/' := by
    simpa [shape] using notSlash
  have hasStack := baseURL_stack server
  have encodedFlat : '/' ∉ escape server.keep name := slash_not_mem_escape flat
  have segment := (ofNames_of_segment encodedFlat).mp (ofNames_escape names)
  rw [join_nil_left (by simp), clean_append_name head hasStack encodedFlat segment]
  rintro ⟨-, decoded, -⟩
  have plain : ∀ c ∈ clean server.baseURL ++ slash, c ≠ '%' ∧ c ≠ '?' ∧ c ≠ '#' := by
    rw [List.forall_mem_append]
    refine ⟨fun c member => ?_, by simp [slash]⟩
    rcases mem_clean head member with rfl | rfl | inBase
    · decide
    · decide
    · exact server.plain c inBase
  have whole : (clean server.baseURL ++ '/' :: escape server.keep name) =
      clean server.baseURL ++ slash ++ escape server.keep name := by
    simp [slash]
  have kept : (clean server.baseURL ++ slash ++ escape server.keep name).takeWhile
      (fun c => c ≠ '?' ∧ c ≠ '#') = clean server.baseURL ++ slash ++ escape server.keep name := by
    apply List.takeWhile_eq_self_iff.mpr
    intro c member
    rcases List.mem_append.mp member with inBase | inName
    · simpa using (plain c inBase).2
    · simpa using mem_href_ne inName
  rw [whole, kept, unescape_append_plain fun percent => (plain '%' percent).1 rfl,
    unescape_escape server.keeps.2.1, Option.map_some, Option.some.injEq] at decoded
  have noBytes : bytes (clean server.baseURL ++ slash) = bytes [] :=
    List.append_cancel_right decoded
  have absurd := bytes_inj.mp noBytes
  simp [slash] at absurd

/-- What is listed well of the objects in the requested collection, or below the
path: the collection is the folder, and holds them directly. -/
def HeldDirectly (path collection name : List Char) : Prop :=
  below path name = true ∨ memberStart collection <+: name →
    collection = trimSlashes path ∧ trimSlashes path ≠ [] ∧
      '/' ∉ name.drop ((trimSlashes path).length + 1)

theorem heldDirectly_of_lists (form : server.form = .fullURL) {collection : List Char}
    (lists : DavLists server path collection) :
    escape server.keep collection = requestPath path ∧
      ∀ name ∈ server.objects, HeldDirectly path collection name := by
  obtain ⟨collections, objects⟩ := (exact_iff server path collection).mp lists.exact
  have requested : escape server.keep collection = requestPath path := by
    apply (entry_collection_none path form lists.requested.2.2).mp
    exact collections collection (mem_response_collection.mpr (.inl rfl))
  refine ⟨requested, fun name stored either => ?_⟩
  have names := server.named name stored
  have starts : memberStart collection <+: name := by
    rcases either with isBelow | starts
    · have both := objects name stored
      rw [isBelow, Bool.and_eq_true] at both
      obtain ⟨rest, rfl, -⟩ := isDirect_iff.mp both.1
      exact ⟨rest, rfl⟩
    · exact starts
  obtain ⟨rest, rfl⟩ := starts
  have flat : '/' ∉ rest := by
    intro nested
    have subNames := ofNames_takeWhile names nested
    have passed := collections _ (mem_response_collection.mpr (.inr ⟨rest, stored, nested, rfl⟩))
    rw [entry_collection_none path form (.inr subNames), ← requested] at passed
    exact ne_memberStart_append subNames (escape_inj passed)
  have direct : isDirect collection (memberStart collection ++ rest) = true :=
    isDirect_iff.mpr ⟨rest, rfl, flat⟩
  have differs : escape server.keep (memberStart collection ++ rest) ≠ requestPath path := by
    rw [← requested]
    exact fun same => ne_memberStart_append names (escape_inj same)
  have entry := entry_object path form names differs
  have isBelow : below path (memberStart collection ++ rest) = true := by
    rw [← objects _ stored, direct, entry]
    rfl
  by_cases root : trimSlashes path = []
  · -- The path that is returned is the address of the object, which is no path.
    exfalso
    have noCollection : collection = [] := by
      rw [requestPath_root root] at requested
      exact @escape_inj server _ [] requested
    have outside : ¬ trimSlashes path ++ slash <+: escape server.keep (memberStart collection ++ rest) := by
      rw [root]
      rintro ⟨more, shape⟩
      have head := (@ofNames_escape server _ names).solid.bare.1
      rw [← shape] at head
      exact head rfl
    rw [relative_outside path outside] at entry
    have leads := lists.addresses _ _ (mem_listed.mpr ⟨stored, direct, entry⟩)
    rw [DavServer.davPath, folder_eq, root] at leads
    have wholeFlat : '/' ∉ memberStart collection ++ rest := by
      rw [noCollection]
      exact flat
    exact not_requests_address wholeFlat names leads
  · have isFolder := collection_eq_folder path root requested flat isBelow
    refine ⟨isFolder, root, ?_⟩
    have shape : memberStart collection ++ rest = trimSlashes path ++ slash ++ rest := by
      rw [memberStart, isFolder, if_neg root]
    rwa [shape, List.drop_left' (by simp [slash])]

/-- An object directly in a folder that needs no encoding is listed under its
encoded name, which leads back to it. -/
theorem entry_in_folder (form : server.form = .fullURL) {rest : List Char}
    (names : OfNames (trimSlashes path ++ '/' :: rest))
    (unencoded : escape server.keep (trimSlashes path) = requestPath path) :
    server.entry path (.object (trimSlashes path ++ '/' :: rest)) =
        some (escape server.keep rest) ∧
      DavServer.Requests (DavServer.davPath path (escape server.keep rest))
        (trimSlashes path ++ '/' :: rest) := by
  obtain ⟨folderNames, restNames⟩ := ofNames_append_slash.mp names
  have clean : requestPath path = trimSlashes path := by
    rw [requestPath_folder folderNames.solid.ne_nil, clean_of_names folderNames]
  rw [clean] at unencoded
  have encoded : escape server.keep (trimSlashes path ++ '/' :: rest) =
      trimSlashes path ++ '/' :: escape server.keep rest := by
    rw [escape_slash, unencoded]
  have restEncoded : OfNames (escape server.keep rest) := ofNames_escape restNames
  have differs : escape server.keep (trimSlashes path ++ '/' :: rest) ≠ requestPath path := by
    rw [encoded, clean]
    simp
  constructor
  · rw [entry_object path form names differs, encoded, relative_inside,
      cutStart_slash_of_head restEncoded.solid.bare.1]
  · have whole : OfNames (trimSlashes path ++ '/' :: escape server.keep rest) :=
      ofNames_append_slash.mpr ⟨folderNames, restEncoded⟩
    rw [DavServer.davPath, folder_eq,
      join_of_ne folderNames.solid.ne_nil restEncoded.solid.ne_nil, clean_of_names whole, ← encoded]
    exact requests_escape (.inr names)

theorem lists_of_heldDirectly (form : server.form = .fullURL) {collection : List Char}
    (names : collection = [] ∨ OfNames collection)
    (requested : escape server.keep collection = requestPath path)
    (held : ∀ name ∈ server.objects, HeldDirectly path collection name) :
    DavLists server path collection := by
  -- An object that is in the collection or below the path is directly in the folder.
  have inFolder {name : List Char} (stored : name ∈ server.objects)
      (either : below path name = true ∨ memberStart collection <+: name) :
      collection = trimSlashes path ∧ trimSlashes path ≠ [] ∧
        ∃ rest, name = trimSlashes path ++ '/' :: rest ∧ '/' ∉ rest := by
    obtain ⟨isFolder, notRoot, flat⟩ := held name stored either
    have starts : ∃ rest, name = trimSlashes path ++ '/' :: rest := by
      rcases either with isBelow | ⟨rest, rfl⟩
      · exact (below_iff notRoot).mp isBelow
      · exact ⟨rest, by simp [memberStart, isFolder, notRoot, slash]⟩
    obtain ⟨rest, rfl⟩ := starts
    have shape : trimSlashes path ++ '/' :: rest = trimSlashes path ++ slash ++ rest := by
      simp [slash]
    rw [shape, List.drop_left' (by simp [slash])] at flat
    exact ⟨isFolder, notRoot, rest, rfl, flat⟩
  have direct {name : List Char} (stored : name ∈ server.objects) :
      isDirect collection name = below path name := by
    apply Bool.eq_iff_iff.mpr
    constructor
    · intro isDirect
      obtain ⟨rest, shape, -⟩ := isDirect_iff.mp isDirect
      obtain ⟨-, notRoot, rest, shape, -⟩ := inFolder stored (.inr ⟨rest, shape.symm⟩)
      exact (below_iff notRoot).mpr ⟨rest, shape⟩
    · intro isBelow
      obtain ⟨isFolder, notRoot, rest, shape, flat⟩ := inFolder stored (.inl isBelow)
      exact isDirect_iff.mpr ⟨rest, by simp [shape, memberStart, isFolder, notRoot, slash], flat⟩
  -- Each of them has an entry, which leads back to it.
  have listed {name : List Char} (stored : name ∈ server.objects)
      (isBelow : below path name = true) : ∃ rel, server.entry path (.object name) = some rel ∧
        DavServer.Requests (DavServer.davPath path rel) name := by
    obtain ⟨isFolder, -, rest, rfl, -⟩ := inFolder stored (.inl isBelow)
    rw [isFolder] at requested
    exact ⟨_, entry_in_folder path form (server.named _ stored) requested⟩
  refine ⟨?_, (exact_iff server path collection).mpr ⟨?_, ?_⟩, ?_⟩
  · have asked := @requests_escape server _ names
    rw [requested] at asked
    rwa [folder_eq]
  · intro sub member
    rcases mem_response_collection.mp member with rfl | ⟨rest, stored, nested, -⟩
    · exact (entry_collection_none path form names).mpr requested
    · obtain ⟨isFolder, notRoot, other, shape, flat⟩ := inFolder stored (.inr ⟨rest, rfl⟩)
      have same : rest = other := by
        simpa [memberStart, isFolder, notRoot, slash] using shape
      exact absurd (same ▸ nested) flat
  · intro name stored
    rw [direct stored]
    cases isBelow : below path name with
    | false => rfl
    | true =>
      obtain ⟨rel, entry, -⟩ := listed stored isBelow
      rw [entry]
      rfl
  · intro name rel member
    obtain ⟨stored, isDirect, entry⟩ := mem_listed.mp member
    rw [direct stored] at isDirect
    obtain ⟨found, foundEntry, leads⟩ := listed stored isDirect
    rw [entry, Option.some.injEq] at foundEntry
    rwa [foundEntry]

theorem dav_full_iff (form : server.form = .fullURL) :
    (∃ collection, DavLists server path collection) ↔
      ∃ collection, (collection = [] ∨ OfNames collection) ∧
        escape server.keep collection = requestPath path ∧
          ∀ name ∈ server.objects, HeldDirectly path collection name := by
  constructor
  · rintro ⟨collection, lists⟩
    exact ⟨collection, lists.requested.2.2, heldDirectly_of_lists path form lists⟩
  · rintro ⟨collection, names, requested, held⟩
    exact ⟨collection, lists_of_heldDirectly path form names requested held⟩

end FullURL

/-! ### Every storage -/

inductive Backend where
  | s3 (path : List Char) (store : ObjectStore)
  | azure (path : List Char) (store : ObjectStore)
  | gcs (path : List Char) (store : ObjectStore)
  | webdav (path : List Char) (server : DavServer)

/-- `List("")` returns exactly the objects below the configured path, and each
returned path leads back to its object. -/
def ListsOwn : Backend → Prop
  | .s3 path store => ListsKeys (s3 path) path store
  | .azure path store => ListsKeys (azure path) path store
  | .gcs path store => ListsKeys (gcs path) path store
  | .webdav path server => ∃ collection, DavLists server path collection

/-- What the configured path and the stored names have to be like. -/
def Fitting : Backend → Prop
  | .s3 _ _ => True
  | .azure path store => ∀ name ∈ store.objects, trimSlashes path = [] ∨ AzureFits path name
  | .gcs path store => ∀ name ∈ store.objects, GcsFits path name
  | .webdav path server =>
    match server.form with
    | .absolutePath => server.root = [] ∧ DavServer.Requests (requestPath path) [] ∧
        ∀ name ∈ server.objects, trimSlashes path = [] ∧ '/' ∉ name
    | .fullURL => ∃ collection, (collection = [] ∨ OfNames collection) ∧
        escape server.keep collection = requestPath path ∧
          ∀ name ∈ server.objects, HeldDirectly path collection name

theorem listsOwn_iff (backend : Backend) : ListsOwn backend ↔ Fitting backend := by
  cases backend with
  | s3 path store =>
    rw [ListsOwn, listsKeys_iff, Fitting, iff_true]
    exact fun name stored => s3_fits path (store.solid name stored)
  | azure path store =>
    rw [ListsOwn, listsKeys_iff, Fitting]
    exact forall₂_congr fun name stored => azure_fits_iff path (store.solid name stored)
  | gcs path store =>
    rw [ListsOwn, listsKeys_iff, Fitting]
    exact forall₂_congr fun name stored => gcs_fits_iff path (store.solid name stored)
  | webdav path server =>
    rw [ListsOwn, Fitting]
    cases form : server.form with
    | absolutePath => exact dav_absolute_iff path form
    | fullURL => exact dav_full_iff path form

theorem solid_neighbours : ∀ name ∈ ["db/a.sql".toList, "db-old/x.sql".toList], Solid name := by
  decide

/-- A container with a backup below `db`, and one of another directory. -/
def neighbours : ObjectStore where
  objects := ["db/a.sql".toList, "db-old/x.sql".toList]
  solid := solid_neighbours
  pages := fun search => [["db/a.sql".toList, "db-old/x.sql".toList].filter search.isPrefixOf]
  answers := by simp

theorem azure_lists_neighbour : ¬ ∀ backend, ListsOwn backend := by
  intro always
  have listed := (always (.azure "db".toList neighbours)).exact
  exact absurd listed (by decide)

/-- The members a server answers with. -/
def membersOf (objects : List (List Char)) (collection : List Char) : List Resource :=
  objects.filterMap (memberOf collection)

theorem eq_of_memberOf {collection name other : List Char}
    (member : memberOf collection name = some (.object other)) : other = name := by
  by_cases starts : memberStart collection <+: name
  · obtain ⟨rest, rfl⟩ := starts
    rw [memberOf_append] at member
    by_cases nested : '/' ∈ rest
    · rw [if_pos nested] at member
      cases member
    · rw [if_neg nested, Option.some.injEq, Resource.object.injEq] at member
      exact member.symm
  · rw [memberOf_elsewhere starts] at member
    cases member

theorem membersOf_objects (objects : List (List Char)) (collection : List Char) :
    (membersOf objects collection).filter Resource.isObject =
      (objects.filter fun name => memberOf collection name = some (.object name)).map .object := by
  unfold membersOf
  induction objects with
  | nil => rfl
  | cons name objects ih =>
    cases member : memberOf collection name with
    | none => simp [member, ih]
    | some item =>
      cases item with
      | collection sub => simp [member, ih, Resource.isObject]
      | object other =>
        have same := eq_of_memberOf member
        rw [same] at member
        rw [List.filterMap_cons_some member, List.filter_cons_of_pos rfl,
          List.filter_cons_of_pos (by simpa using member), List.map_cons,
          ih]

theorem kept_not_control (c : Char) (control : isControl c = true) :
    (c = '/' || keptInSegment c) = false := by
  have all : (List.range 128).all (fun code =>
      !isControl (Char.ofNat code) || !(Char.ofNat code = '/' || keptInSegment (Char.ofNat code))) =
        true := by
    decide
  have small : c.toNat < 128 := by
    rw [isControl, Bool.or_eq_true, decide_eq_true_eq, decide_eq_true_eq] at control
    omega
  have isKept := List.all_eq_true.mp all c.toNat (List.mem_range.mpr small)
  rw [Char.ofNat_toNat, control, Bool.not_true, Bool.false_or, Bool.not_eq_true_eq_eq_false] at isKept
  exact isKept

theorem address_plain : ∀ c ∈ "https://host/dav".toList, c ≠ '%' ∧ c ≠ '?' ∧ c ≠ '#' := by
  have all : "https://host/dav".toList.all (fun c => c ≠ '%' && c ≠ '?' && c ≠ '#') = true := by
    decide
  intro c member
  simpa [and_assoc] using List.all_eq_true.mp all c member

theorem address_dotless : ∀ segment ∈ "https://host/dav".toList.splitOn '/',
    segment = [] ∨ IsName segment := by
  decide

theorem ofNames_stored : ∀ name ∈ ["db/a b.sql".toList, "db-old/x.sql".toList], OfNames name := by
  decide

/-- A server that answers with full URLs. -/
def davServer : DavServer where
  origin := "https://host".toList
  root := "/dav".toList
  form := .fullURL
  keep := fun c => c = '/' || keptInSegment c
  objects := ["db/a b.sql".toList, "db-old/x.sql".toList]
  members := membersOf ["db/a b.sql".toList, "db-old/x.sql".toList]
  named := ofNames_stored
  absolute := by decide
  rooted := by decide
  plain := address_plain
  dotless := address_dotless
  keeps := by decide
  noControls := kept_not_control
  objectsListed := membersOf_objects _
  collectionsListed := by simp [membersOf]

theorem listsOwn_davServer : ListsOwn (.webdav "db".toList davServer) := by
  have unencoded : escape davServer.keep "db".toList = requestPath "db".toList := by
    decide +kernel
  have held : ∀ name ∈ davServer.objects, HeldDirectly "db".toList "db".toList name := by
    intro name stored either
    refine ⟨by decide +kernel, by decide +kernel, ?_⟩
    rcases List.mem_cons.mp stored with rfl | later
    · decide +kernel
    · cases List.mem_singleton.mp later
      exact absurd either (by decide +kernel)
  have names : "db".toList = [] ∨ OfNames "db".toList := .inr (by decide)
  exact (listsOwn_iff (.webdav "db".toList davServer)).mpr ⟨"db".toList, names, unencoded, held⟩

end DbBackup.Storage.Backends
