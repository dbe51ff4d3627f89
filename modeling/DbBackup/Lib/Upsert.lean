import Mathlib.Data.List.Nodup

/-!
Owns merging of lists of keyed items, and of trees of such lists: an item with a
new key is appended, an item with a known key is combined with the one that is
there.

Contract: `lookup_putAll` tells what is found after a merge. A `Shape` is a tree
that is read by paths of keys; merging level by level gives, at every path, the
entry of the newer tree if it has one and else that of the older one
(`Shape.Merges`, `merges_nested`).
-/

namespace DbBackup.Lib.Upsert

variable {α β κ π ε : Type} [DecidableEq κ]

/-! ### One level -/

def lookup (key : α → κ) (items : List α) (k : κ) : Option α :=
  items.find? fun item => key item = k

def put (key : α → κ) (combine : α → α → α) : List α → α → List α
  | [], new => [new]
  | item :: rest, new =>
    if key item = key new then combine item new :: rest
    else item :: put key combine rest new

def putAll (key : α → κ) (combine : α → α → α) (items news : List α) : List α :=
  news.foldl (put key combine) items

/-- Combining keeps the key. -/
def KeepsKey (key : α → κ) (combine : α → α → α) : Prop :=
  ∀ old new, key old = key new → key (combine old new) = key old

variable {key : α → κ} {combine : α → α → α}

variable {items : List α}

theorem lookup_eq_some_iff (unique : (items.map key).Nodup) {k : κ} {item : α} :
    lookup key items k = some item ↔ item ∈ items ∧ key item = k := by
  induction items with
  | nil => simp [lookup]
  | cons first rest ih =>
    obtain ⟨notLater, restUnique⟩ := List.nodup_cons.mp unique
    by_cases here : key first = k
    · have found : lookup key (first :: rest) k = some first := by simp [lookup, here]
      rw [found, Option.some.injEq]
      constructor
      · rintro rfl
        exact ⟨List.mem_cons_self, here⟩
      · rintro ⟨member, sameKey⟩
        rcases List.mem_cons.mp member with rfl | later
        · rfl
        · exact absurd (List.mem_map.mpr ⟨item, later, sameKey.trans here.symm⟩) notLater
    · have skipped : lookup key (first :: rest) k = lookup key rest k := by simp [lookup, here]
      rw [skipped, ih restUnique, List.mem_cons]
      constructor
      · rintro ⟨member, sameKey⟩
        exact ⟨.inr member, sameKey⟩
      · rintro ⟨rfl | member, sameKey⟩
        · exact absurd sameKey here
        · exact ⟨member, sameKey⟩

theorem lookup_eq_none_iff {k : κ} : lookup key items k = none ↔ k ∉ items.map key := by
  rw [lookup, List.find?_eq_none]
  simp

theorem lookup_filterMap {keys : List κ} {item : κ → Option α}
    (ownKey : ∀ {k found}, item k = some found → key found = k) (k : κ) :
    lookup key (keys.filterMap item) k = if k ∈ keys then item k else none := by
  induction keys with
  | nil => rfl
  | cons first rest ih =>
    cases made : item first with
    | none =>
      rw [List.filterMap_cons_none made, ih]
      by_cases here : k = first
      · simp [here, made]
      · simp [here]
    | some found =>
      rw [List.filterMap_cons_some made]
      by_cases here : k = first
      · simp [lookup, here, made, ownKey made]
      · have skipped : key found ≠ k := by
          rw [ownKey made]
          exact Ne.symm here
        have same : lookup key (found :: rest.filterMap item) k =
            lookup key (rest.filterMap item) k := by simp [lookup, skipped]
        rw [same, ih]
        simp [here]

theorem lookup_put (keepsKey : KeepsKey key combine) (items : List α) (new : α) (k : κ) :
    lookup key (put key combine items new) k =
      if key new = k then some (((lookup key items k).map (combine · new)).getD new)
      else lookup key items k := by
  induction items with
  | nil => by_cases here : key new = k <;> simp [put, lookup, here]
  | cons item rest ih =>
    rw [put]
    by_cases same : key item = key new
    · have kept := keepsKey item new same
      rw [if_pos same]
      by_cases here : key new = k
      · simp [lookup, kept, same, here]
      · have other : ¬ key item = k := fun itemHere => here (same ▸ itemHere)
        simp [lookup, kept, here, other]
    · rw [if_neg same]
      by_cases itemHere : key item = k
      · have other : ¬ key new = k := fun newHere => same (itemHere.trans newHere.symm)
        simp [lookup, itemHere, other]
      · have first : lookup key (item :: rest) k = lookup key rest k := by
          simp [lookup, itemHere]
        have second : lookup key (item :: put key combine rest new) k =
            lookup key (put key combine rest new) k := by
          simp [lookup, itemHere]
        rw [first, second, ih]

variable {news : List α}

theorem lookup_putAll (keepsKey : KeepsKey key combine) (items : List α)
    (unique : (news.map key).Nodup) (k : κ) :
    lookup key (putAll key combine items news) k =
      match lookup key news k with
      | none => lookup key items k
      | some new => some (((lookup key items k).map (combine · new)).getD new) := by
  induction news generalizing items with
  | nil => rfl
  | cons new rest ih =>
    obtain ⟨notLater, restUnique⟩ := List.nodup_cons.mp unique
    rw [putAll, List.foldl_cons]
    have restFound := ih (put key combine items new) restUnique
    rw [putAll] at restFound
    rw [restFound, lookup_put keepsKey]
    by_cases here : key new = k
    · have absent : lookup key rest k = none := lookup_eq_none_iff.mpr (here ▸ notLater)
      have found : lookup key (new :: rest) k = some new := by simp [lookup, here]
      rw [absent, found, if_pos here]
    · have skipped : lookup key (new :: rest) k = lookup key rest k := by simp [lookup, here]
      rw [skipped, if_neg here]

theorem mem_keys_put (keepsKey : KeepsKey key combine) {new : α} {k : κ} :
    k ∈ (put key combine items new).map key ↔ k ∈ items.map key ∨ k = key new := by
  rw [← not_iff_not, ← lookup_eq_none_iff, not_or, ← lookup_eq_none_iff, lookup_put keepsKey]
  by_cases here : key new = k
  · simp [here]
  · simp [here, Ne.symm here]

theorem nodup_put (keepsKey : KeepsKey key combine) (unique : (items.map key).Nodup) (new : α) :
    ((put key combine items new).map key).Nodup := by
  induction items with
  | nil => exact List.nodup_singleton _
  | cons item rest ih =>
    obtain ⟨notLater, restUnique⟩ := List.nodup_cons.mp unique
    rw [put]
    by_cases same : key item = key new
    · rw [if_pos same, List.map_cons, keepsKey item new same]
      exact unique
    · rw [if_neg same]
      refine List.nodup_cons.mpr ⟨fun member => ?_, ih restUnique⟩
      exact ((mem_keys_put keepsKey).mp member).elim notLater same

theorem nodup_putAll (keepsKey : KeepsKey key combine)
    (unique : (items.map key).Nodup) (news : List α) :
    ((putAll key combine items news).map key).Nodup := by
  induction news generalizing items with
  | nil => exact unique
  | cons new rest ih => exact ih (nodup_put keepsKey unique new)

/-- A property of items that combining keeps. -/
theorem forall_putAll {Good : α → Prop}
    (combined : ∀ old new, Good old → Good new → Good (combine old new)) {items news : List α}
    (itemsGood : ∀ item ∈ items, Good item) (newsGood : ∀ new ∈ news, Good new) :
    ∀ item ∈ putAll key combine items news, Good item := by
  have onePut : ∀ (items : List α) (new : α), (∀ item ∈ items, Good item) → Good new →
      ∀ item ∈ put key combine items new, Good item := by
    intro items new itemsGood newGood
    induction items with
    | nil =>
      intro item member
      rw [put, List.mem_singleton] at member
      exact member ▸ newGood
    | cons first rest ih =>
      obtain ⟨firstGood, restGood⟩ := List.forall_mem_cons.mp itemsGood
      rw [put]
      split
      · exact List.forall_mem_cons.mpr ⟨combined first new firstGood newGood, restGood⟩
      · exact List.forall_mem_cons.mpr ⟨firstGood, ih restGood⟩
  induction news generalizing items with
  | nil => exact itemsGood
  | cons new rest ih =>
    obtain ⟨newGood, restGood⟩ := List.forall_mem_cons.mp newsGood
    exact ih (onePut items new itemsGood newGood) restGood

/-! ### Trees -/

/-- A tree whose entries are found by paths. -/
structure Shape (α π ε : Type) where
  entries : α → List (π × ε)
  find : α → π → Option ε
  Unique : α → Prop
  mem_entries : ∀ {a}, Unique a → ∀ path entry, (path, entry) ∈ entries a ↔ find a path = some entry
  nodup_paths : ∀ {a}, Unique a → ((entries a).map Prod.fst).Nodup

/-- The newer tree's entry is found, or else the older one's. -/
structure Shape.Merges (shape : Shape α π ε) (combine : α → α → α) : Prop where
  find_combine : ∀ old {new}, shape.Unique new → ∀ path,
    shape.find (combine old new) path = (shape.find new path).or (shape.find old path)
  unique_combine : ∀ {old new}, shape.Unique old → shape.Unique new → shape.Unique (combine old new)

def leaves (key : α → κ) : Shape (List α) κ α where
  entries items := items.map fun item => (key item, item)
  find := lookup key
  Unique items := (items.map key).Nodup
  mem_entries unique path entry := by
    rw [lookup_eq_some_iff unique, List.mem_map]
    constructor
    · rintro ⟨item, member, same⟩
      obtain ⟨rfl, rfl⟩ := Prod.mk.inj same
      exact ⟨member, rfl⟩
    · rintro ⟨member, rfl⟩
      exact ⟨entry, member, rfl⟩
  nodup_paths unique := by
    rw [List.map_map]
    exact unique

def Shape.comap (shape : Shape α π ε) (part : β → α) : Shape β π ε where
  entries b := shape.entries (part b)
  find b := shape.find (part b)
  Unique b := shape.Unique (part b)
  mem_entries unique := shape.mem_entries unique
  nodup_paths unique := shape.nodup_paths unique

/-- The items of a list, each a tree under its key. -/
def nested (key : α → κ) (shape : Shape α π ε) : Shape (List α) (κ × π) ε where
  entries items := items.flatMap fun item =>
    (shape.entries item).map fun entry => ((key item, entry.1), entry.2)
  find items path := (lookup key items path.1).bind fun item => shape.find item path.2
  Unique items := (items.map key).Nodup ∧ ∀ item ∈ items, shape.Unique item
  mem_entries := by
    rintro items ⟨unique, each⟩ ⟨k, path⟩ entry
    rw [List.mem_flatMap, Option.bind_eq_some_iff]
    constructor
    · rintro ⟨item, member, inItem⟩
      obtain ⟨⟨itemPath, itemEntry⟩, itemMember, same⟩ := List.mem_map.mp inItem
      obtain ⟨samePath, rfl⟩ := Prod.mk.inj same
      obtain ⟨rfl, rfl⟩ := Prod.mk.inj samePath
      exact ⟨item, (lookup_eq_some_iff unique).mpr ⟨member, rfl⟩,
        (shape.mem_entries (each item member) _ _).mp itemMember⟩
    · rintro ⟨item, found, inItem⟩
      obtain ⟨member, rfl⟩ := (lookup_eq_some_iff unique).mp found
      exact ⟨item, member, List.mem_map.mpr ⟨(path, entry),
        (shape.mem_entries (each item member) _ _).mpr inItem, rfl⟩⟩
  nodup_paths := by
    rintro items ⟨unique, each⟩
    induction items with
    | nil => exact List.nodup_nil
    | cons item rest ih =>
      obtain ⟨notLater, restUnique⟩ := List.nodup_cons.mp unique
      obtain ⟨itemUnique, restEach⟩ := List.forall_mem_cons.mp each
      rw [List.flatMap_cons, List.map_append]
      refine List.nodup_append'.mpr ⟨?_, ih restUnique restEach, ?_⟩
      · rw [List.map_map]
        have injective : Function.Injective (Prod.mk (key item) : π → κ × π) :=
          fun _ _ same => (Prod.mk.inj same).2
        have paths := (shape.nodup_paths itemUnique).map injective
        rw [List.map_map] at paths
        exact paths
      · -- a path of a later item begins with another key
        intro path inItem inRest
        obtain ⟨entry, entryMember, rfl⟩ := List.mem_map.mp inItem
        obtain ⟨itemEntry, -, rfl⟩ := List.mem_map.mp entryMember
        obtain ⟨other, otherMember, same⟩ := List.mem_map.mp inRest
        obtain ⟨later, laterMember, laterEntry⟩ := List.mem_flatMap.mp otherMember
        obtain ⟨restEntry, -, rfl⟩ := List.mem_map.mp laterEntry
        have sameKey : key later = key item := congrArg Prod.fst same
        exact notLater (List.mem_map.mpr ⟨later, laterMember, sameKey⟩)

theorem merges_leaves (key : α → κ) : (leaves key).Merges (putAll key fun _ new => new) where
  find_combine old new unique path := by
    have keepsKey : KeepsKey key fun _ new => new := fun _ _ same => same.symm
    change lookup key (putAll key _ old new) path = (lookup key new path).or (lookup key old path)
    rw [lookup_putAll keepsKey old unique]
    cases lookup key new path with
    | none => rfl
    | some item => cases lookup key old path <;> rfl
  unique_combine oldUnique _ := nodup_putAll (fun _ _ same => same.symm) oldUnique _

variable {shape : Shape α π ε}

theorem merges_comap {combine : α → α → α} (merges : shape.Merges combine)
    {part : β → α} {combineAll : β → β → β}
    (parts : ∀ old new, part (combineAll old new) = combine (part old) (part new)) :
    (shape.comap part).Merges combineAll where
  find_combine old new unique path := by
    change shape.find (part (combineAll old new)) path = _
    rw [parts]
    exact merges.find_combine (part old) unique path
  unique_combine oldUnique newUnique := by
    change shape.Unique (part (combineAll _ _))
    rw [parts]
    exact merges.unique_combine oldUnique newUnique

theorem merges_nested (merges : shape.Merges combine) (keepsKey : KeepsKey key combine) :
    (nested key shape).Merges (putAll key combine) where
  find_combine old new unique path := by
    obtain ⟨k, path⟩ := path
    change (lookup key (putAll key combine old new) k).bind (shape.find · path) =
      ((lookup key new k).bind (shape.find · path)).or
        ((lookup key old k).bind (shape.find · path))
    rw [lookup_putAll keepsKey old unique.1]
    cases newFound : lookup key new k with
    | none => rfl
    | some newItem =>
      have newUnique : shape.Unique newItem :=
        unique.2 newItem ((lookup_eq_some_iff unique.1).mp newFound).1
      cases lookup key old k with
      | none => exact (Option.or_none ..).symm
      | some oldItem => exact merges.find_combine oldItem newUnique path
  unique_combine oldUnique newUnique :=
    ⟨nodup_putAll keepsKey oldUnique.1 _,
      forall_putAll (fun _ _ oldGood newGood => merges.unique_combine oldGood newGood)
        oldUnique.2 newUnique.2⟩

/-- A chain of trees, merged from the oldest on. -/
theorem find_foldl (merges : shape.Merges combine)
    (unique : ∀ new ∈ news, shape.Unique new) (old : α) (path : π) :
    shape.find (news.foldl combine old) path =
      (news.reverse.findSome? fun new => shape.find new path).or (shape.find old path) := by
  induction news generalizing old with
  | nil => rfl
  | cons new rest ih =>
    obtain ⟨newUnique, restUnique⟩ := List.forall_mem_cons.mp unique
    rw [List.foldl_cons, ih restUnique, merges.find_combine old newUnique,
      List.reverse_cons, List.findSome?_append, Option.or_assoc]
    cases found : shape.find new path <;> simp [found]

theorem unique_foldl (merges : shape.Merges combine)
    (unique : ∀ new ∈ news, shape.Unique new) {old : α} (oldUnique : shape.Unique old) :
    shape.Unique (news.foldl combine old) := by
  induction news generalizing old with
  | nil => exact oldUnique
  | cons new rest ih =>
    obtain ⟨newUnique, restUnique⟩ := List.forall_mem_cons.mp unique
    exact ih restUnique (merges.unique_combine oldUnique newUnique)

end DbBackup.Lib.Upsert
