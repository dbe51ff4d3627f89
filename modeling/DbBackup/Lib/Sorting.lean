import Mathlib.Data.List.Sort

/-!
Owns the contract of Go's `sort.Slice`: the result is a permutation of the
input in which no later element is less than an earlier one. The order of
equal elements is left open, because the library sort is not stable.

A `SliceSort` is any function with that contract; the results of this
development hold for each of them. `insertionSliceSort` shows that there is
one that computes.

Owns as well the scan that keeps the last item with the greatest key seen so
far, and what a search through a sorted list finds first.
-/

namespace DbBackup.Lib.Sorting

variable {α : Type*}

structure SliceSort (less : α → α → Bool) where
  run : List α → List α
  perm : ∀ items, (run items).Perm items
  sorted : ∀ items, (run items).Pairwise fun earlier later => less later earlier = false

/-- A comparison that a sort can use: what neither precedes the other is equivalent. -/
structure StrictWeak (less : α → α → Prop) : Prop where
  irrefl : ∀ a, ¬ less a a
  asymm : ∀ a b, less a b → ¬ less b a
  trans : ∀ a b c, less a b → less b c → less a c
  incomparable_trans : ∀ a b c, ¬ less a b ∧ ¬ less b a → ¬ less b c ∧ ¬ less c b →
    ¬ less a c ∧ ¬ less c a

theorem StrictWeak.of_key {β : Type*} [LinearOrder β] {less : α → α → Prop} {key : α → β}
    (byKey : ∀ a b, less a b ↔ key a < key b) : StrictWeak less where
  irrefl a := by
    rw [byKey]
    exact lt_irrefl _
  asymm a b := by
    rw [byKey, byKey]
    exact lt_asymm
  trans a b c := by
    rw [byKey, byKey, byKey]
    exact lt_trans
  incomparable_trans a b c := by
    simp only [byKey, not_lt]
    exact fun first second => ⟨second.1.trans first.1, first.2.trans second.2⟩

/-- The `less` callbacks of the development compare one key. -/
structure KeyOrder (less : α → α → Bool) : Prop where
  trans : ∀ a b c, less b a = false → less c b = false → less c a = false
  total : ∀ a b, less b a = false ∨ less a b = false

def insertionSliceSort (less : α → α → Bool) (order : KeyOrder less) : SliceSort less where
  run := List.insertionSort fun a b => less b a = false
  perm items := List.perm_insertionSort _ items
  sorted items := by
    have : Std.Total fun a b => less b a = false := ⟨order.total⟩
    have : IsTrans α fun a b => less b a = false := ⟨order.trans⟩
    exact List.pairwise_insertionSort _ items

variable {less : α → α → Bool}

variable (sort : SliceSort less) {items : List α} {item : α}

theorem SliceSort.mem_run :
    item ∈ sort.run items ↔ item ∈ items :=
  (sort.perm items).mem_iff

/-- Where `less` decides every pair of different items, sorting a part of the
list gives that part of the sorted list. -/
theorem SliceSort.run_filter
    (decisive : ∀ a ∈ items, ∀ b ∈ items, less a b = false → less b a = false → a = b)
    (keep : α → Bool) :
    sort.run (items.filter keep) = (sort.run items).filter keep := by
  have samePerm : (sort.run (items.filter keep)).Perm ((sort.run items).filter keep) :=
    (sort.perm _).trans ((sort.perm items).filter keep).symm
  apply samePerm.eq_of_pairwise _ (sort.sorted _) ((sort.sorted items).filter keep)
  intro a b inPart inRest notLess notMore
  have aMember : a ∈ items := List.mem_of_mem_filter (sort.mem_run.mp inPart)
  have bMember : b ∈ items := sort.mem_run.mp (List.mem_of_mem_filter inRest)
  exact decisive a aMember b bMember notMore notLess

/-- Searching a sorted list for the first item with a value finds `value`
exactly if some item has it and every item with another value comes after one
that has it. -/
theorem SliceSort.findSome?_run {β : Type*} (irreflexive : ∀ a, less a a = false)
    (decisive : ∀ a ∈ items, ∀ b ∈ items, less a b = false → less b a = false → a = b)
    (value? : α → Option β) (value : β) :
    (sort.run items).findSome? value? = some value ↔
      (∃ item ∈ items, value? item = some value) ∧
        ∀ other ∈ items, ∀ otherValue, value? other = some otherValue → otherValue ≠ value →
          ∃ item ∈ items, value? item = some value ∧ less item other = true := by
  have split : ∀ found, (sort.run items).findSome? value? = some found →
      ∃ before first after, sort.run items = before ++ first :: after ∧
        value? first = some found ∧ ∀ item ∈ before, value? item = none := by
    intro found search
    exact List.findSome?_eq_some_iff.mp search
  constructor
  · intro search
    obtain ⟨before, first, after, shape, firstValue, noneBefore⟩ := split value search
    have firstMember : first ∈ items := sort.mem_run.mp (by simp [shape])
    refine ⟨⟨first, firstMember, firstValue⟩, ?_⟩
    intro other otherMember otherValue otherHas different
    refine ⟨first, firstMember, firstValue, ?_⟩
    have otherInRun : other ∈ before ++ first :: after := by
      rw [← shape]
      exact sort.mem_run.mpr otherMember
    have otherAfter : other ∈ after := by
      rcases List.mem_append.mp otherInRun with inBefore | inRest
      · simp [noneBefore other inBefore] at otherHas
      · rcases List.mem_cons.mp inRest with same | inAfter
        · rw [same, firstValue] at otherHas
          exact absurd (Option.some.inj otherHas).symm different
        · exact inAfter
    have notLess : less other first = false := by
      have sorted := sort.sorted items
      rw [shape] at sorted
      have tail := (List.pairwise_append.mp sorted).2.1
      exact List.rel_of_pairwise_cons tail otherAfter
    by_contra notMore
    rw [Bool.not_eq_true] at notMore
    have same := decisive first firstMember other otherMember notMore notLess
    rw [← same, firstValue] at otherHas
    exact different (Option.some.inj otherHas).symm
  · rintro ⟨⟨item, itemMember, itemValue⟩, precedes⟩
    have someFound : ((sort.run items).findSome? value?).isSome := by
      rw [List.findSome?_isSome_iff]
      exact ⟨item, sort.mem_run.mpr itemMember, by simp [itemValue]⟩
    obtain ⟨found, search⟩ := Option.isSome_iff_exists.mp someFound
    obtain ⟨before, first, after, shape, firstValue, noneBefore⟩ := split found search
    have firstMember : first ∈ items := sort.mem_run.mp (by simp [shape])
    by_cases same : found = value
    · rw [search, same]
    · obtain ⟨earlier, earlierMember, earlierValue, isLess⟩ :=
        precedes first firstMember found firstValue same
      have inRun : earlier ∈ before ++ first :: after := by
        rw [← shape]
        exact sort.mem_run.mpr earlierMember
      exfalso
      rcases List.mem_append.mp inRun with inBefore | inRest
      · simp [noneBefore earlier inBefore] at earlierValue
      · rcases List.mem_cons.mp inRest with isFirst | inAfter
        · rw [isFirst, irreflexive first] at isLess
          exact absurd isLess (by simp)
        · have sorted := sort.sorted items
          rw [shape] at sorted
          have tail := (List.pairwise_append.mp sorted).2.1
          have notLess := List.rel_of_pairwise_cons tail inAfter
          rw [isLess] at notLess
          exact absurd notLess (by simp)

/-! ### The last greatest item -/

/-- One step of the scan: an item at least as great as the best so far
replaces it. -/
def keepLatest (key : α → Int) (best : Option α × Int) (item : α) : Option α × Int :=
  if best.2 ≤ key item then (some item, key item) else best

def latest (key : α → Int) (start : Int) (items : List α) : Option α :=
  (items.foldl (keepLatest key) (none, start)).1

/-- The last of the items with the greatest key, if that key reaches `start`. -/
def IsLatest (key : α → Int) (start : Int) (items : List α) (item : α) : Prop :=
  ∃ before after, items = before ++ item :: after ∧ start ≤ key item ∧
    (∀ other ∈ before, key other ≤ key item) ∧ ∀ other ∈ after, key other < key item

private theorem foldl_keepLatest_of_below {key : α → Int} {items : List α}
    {best : Option α × Int} (below : ∀ item ∈ items, key item < best.2) :
    items.foldl (keepLatest key) best = best := by
  induction items with
  | nil => rfl
  | cons item rest ih =>
    have itemBelow := below item (by simp)
    have kept : keepLatest key best item = best := by
      unfold keepLatest
      rw [if_neg (by omega)]
    rw [List.foldl_cons, kept]
    exact ih fun other member => below other (by simp [member])

private theorem foldl_keepLatest_bound {key : α → Int} (items : List α)
    (best : Option α × Int) (limit : Int) (bestLe : best.2 ≤ limit)
    (itemsLe : ∀ item ∈ items, key item ≤ limit) :
    (items.foldl (keepLatest key) best).2 ≤ limit := by
  induction items generalizing best with
  | nil => exact bestLe
  | cons item rest ih =>
    rw [List.foldl_cons]
    apply ih
    · unfold keepLatest
      split
      · exact itemsLe item (by simp)
      · exact bestLe
    · intro other member
      exact itemsLe other (by simp [member])

variable {start : Int}

theorem latest_of_isLatest {key : α → Int}
    (isLatest : IsLatest key start items item) : latest key start items = some item := by
  obtain ⟨before, after, shape, reaches, atMost, below⟩ := isLatest
  have bound := foldl_keepLatest_bound before (none, start) (key item) reaches atMost
  unfold latest
  rw [shape, List.foldl_append, List.foldl_cons]
  have replaced : keepLatest key (before.foldl (keepLatest key) (none, start)) item =
      (some item, key item) := if_pos bound
  rw [replaced, foldl_keepLatest_of_below below]

/-- The last of the greatest items always exists, unless no key reaches `start`. -/
theorem exists_isLatest (key : α → Int) (start : Int) (items : List α) :
    (∃ item, IsLatest key start items item) ∨ ∀ item ∈ items, key item < start := by
  induction items with
  | nil => exact .inr (by simp)
  | cons head rest ih =>
    rcases ih with ⟨item, before, after, shape, reaches, atMost, below⟩ | allBelow
    · by_cases headLe : key head ≤ key item
      · refine .inl ⟨item, head :: before, after, by simp [shape], reaches, ?_, below⟩
        intro other member
        rcases List.mem_cons.mp member with same | inBefore
        · rw [same]
          exact headLe
        · exact atMost other inBefore
      · refine .inl ⟨head, [], rest, rfl, by omega, by simp, ?_⟩
        intro other member
        rw [shape] at member
        rcases List.mem_append.mp member with inBefore | inRest
        · have := atMost other inBefore
          omega
        · rcases List.mem_cons.mp inRest with same | inAfter
          · rw [same]
            omega
          · have := below other inAfter
            omega
    · by_cases headReaches : start ≤ key head
      · refine .inl ⟨head, [], rest, rfl, headReaches, by simp, ?_⟩
        intro other member
        have := allBelow other member
        omega
      · refine .inr ?_
        intro other member
        rcases List.mem_cons.mp member with same | inRest
        · rw [same]
          omega
        · exact allBelow other inRest

theorem latest_eq_some_iff {key : α → Int} :
    latest key start items = some item ↔ IsLatest key start items item := by
  constructor
  · intro found
    rcases exists_isLatest key start items with ⟨other, isLatest⟩ | allBelow
    · have same := latest_of_isLatest isLatest
      rw [found] at same
      rw [Option.some.inj same]
      exact isLatest
    · have nothing : latest key start items = none := by
        unfold latest
        rw [foldl_keepLatest_of_below allBelow]
      rw [found] at nothing
      exact absurd nothing (by simp)
  · exact latest_of_isLatest

theorem IsLatest.mem {key : α → Int} (isLatest : IsLatest key start items item) : item ∈ items := by
  obtain ⟨before, after, shape, _⟩ := isLatest
  simp [shape]

theorem IsLatest.key_le {key : α → Int} {item other : α}
    (isLatest : IsLatest key start items item) (member : other ∈ items) : key other ≤ key item := by
  obtain ⟨before, after, shape, _, atMost, below⟩ := isLatest
  rw [shape] at member
  rcases List.mem_append.mp member with inBefore | inRest
  · exact atMost other inBefore
  · rcases List.mem_cons.mp inRest with same | inAfter
    · rw [same]
    · exact (below other inAfter).le

end DbBackup.Lib.Sorting
