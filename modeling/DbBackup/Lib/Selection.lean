import Mathlib.Data.Finset.Card

/-!
Owns the greedy choice of one item for each of the first few keys of a list:
a scan that takes an item when its key is new and the count is not used up.

Its rule is `mem_pick_iff`: an item is taken exactly when it is the first of
its key and few enough keys come before it. Leaving items out can only help
the others (`mem_pick_filter`).
-/

namespace DbBackup.Lib.Selection

variable {α κ : Type*} [DecidableEq κ]

def keysOf (key : α → κ) (items : List α) : Finset κ := (items.map key).toFinset

theorem keysOf_cons (key : α → κ) (item : α) (rest : List α) :
    keysOf key (item :: rest) = insert (key item) (keysOf key rest) := by
  simp [keysOf]

variable {items : List α}

theorem mem_keysOf {key : α → κ} {value : κ} :
    value ∈ keysOf key items ↔ ∃ item ∈ items, key item = value := by
  simp [keysOf]

/-- The first items of the keys not seen yet, as long as fewer than `count`
keys have been seen. -/
def pick (count : Nat) (key : α → κ) (seen : Finset κ) : List α → List α
  | [] => []
  | item :: rest =>
    if seen.card < count ∧ key item ∉ seen then
      item :: pick count key (insert (key item) seen) rest
    else pick count key seen rest

/-- The item is the first one of its key, and its key is one of the first
`count` keys of the list. -/
def Leads (count : Nat) (key : α → κ) (seen : Finset κ) (items : List α) (item : α) : Prop :=
  ∃ before after, items = before ++ item :: after ∧ key item ∉ seen ∪ keysOf key before ∧
    (seen ∪ keysOf key before).card < count

variable {count : Nat} {seen : Finset κ}

theorem leads_cons_iff {key : α → κ} {first item : α} {rest : List α} :
    Leads count key seen (first :: rest) item ↔
      (item = first ∧ key first ∉ seen ∧ seen.card < count) ∨
        Leads count key (insert (key first) seen) rest item := by
  constructor
  · rintro ⟨before, after, shape, fresh, few⟩
    cases before with
    | nil =>
      obtain ⟨rfl, rfl⟩ := List.cons.inj shape
      exact .inl ⟨rfl, by simpa [keysOf] using fresh, by simpa [keysOf] using few⟩
    | cons head before =>
      obtain ⟨rfl, rfl⟩ := List.cons.inj shape
      have moved : seen ∪ keysOf key (first :: before) =
          insert (key first) seen ∪ keysOf key before := by
        rw [keysOf_cons, Finset.union_insert, Finset.insert_union]
      rw [moved] at fresh few
      exact .inr ⟨before, after, rfl, fresh, few⟩
  · rintro (⟨rfl, fresh, few⟩ | ⟨before, after, rfl, fresh, few⟩)
    · exact ⟨[], rest, rfl, by simpa [keysOf] using fresh, by simpa [keysOf] using few⟩
    · have moved : seen ∪ keysOf key (first :: before) =
          insert (key first) seen ∪ keysOf key before := by
        rw [keysOf_cons, Finset.union_insert, Finset.insert_union]
      refine ⟨first :: before, after, rfl, ?_, ?_⟩
      · rw [moved]
        exact fresh
      · rw [moved]
        exact few

variable {item : α}

theorem Leads.few {key : α → κ} (leads : Leads count key seen items item) : seen.card < count := by
  obtain ⟨before, _, _, _, few⟩ := leads
  exact Nat.lt_of_le_of_lt (Finset.card_le_card Finset.subset_union_left) few

theorem mem_pick_iff {key : α → κ} :
    item ∈ pick count key seen items ↔ Leads count key seen items item := by
  induction items generalizing seen with
  | nil =>
    constructor
    · intro member
      cases member
    · rintro ⟨before, after, shape, -, -⟩
      simp at shape
  | cons first rest ih =>
    rw [pick, leads_cons_iff, ← ih]
    split
    · rename_i taken
      rw [List.mem_cons]
      constructor
      · rintro (isFirst | later)
        · exact .inl ⟨isFirst, taken.2, taken.1⟩
        · exact .inr later
      · rintro (⟨isFirst, -, -⟩ | later)
        · exact .inl isFirst
        · exact .inr later
    · rename_i refused
      rw [ih, ih]
      constructor
      · intro leads
        -- The key has been seen, or nothing more is taken at all.
        have seenKey : key first ∈ seen := by
          by_contra fresh
          exact refused ⟨leads.few, fresh⟩
        rw [Finset.insert_eq_of_mem seenKey]
        exact .inr leads
      · rintro (⟨-, fresh, few⟩ | leads)
        · exact absurd ⟨few, fresh⟩ refused
        · have few : seen.card < count :=
            Nat.lt_of_le_of_lt (Finset.card_le_card (Finset.subset_insert _ _)) leads.few
          have seenKey : key first ∈ seen := by
            by_contra fresh
            exact refused ⟨few, fresh⟩
          rwa [Finset.insert_eq_of_mem seenKey] at leads

theorem length_pick_le (count : Nat) (key : α → κ) (seen : Finset κ) (items : List α) :
    (pick count key seen items).length ≤ count - seen.card := by
  induction items generalizing seen with
  | nil => exact Nat.zero_le _
  | cons first rest ih =>
    rw [pick]
    split
    · rename_i taken
      have bound := ih (insert (key first) seen)
      rw [Finset.card_insert_of_notMem taken.2] at bound
      rw [List.length_cons]
      omega
    · exact ih seen

/-- What is taken of the items that pass a test is taken of those that pass a
sharper one, if it passes that too. -/
theorem mem_pick_filter {few count : Nat} {key : α → κ}
    {loose sharp : α → Bool} (enough : few ≤ count)
    (sharper : ∀ other ∈ items, sharp other = true → loose other = true)
    (passes : sharp item = true) (taken : item ∈ pick few key ∅ (items.filter loose)) :
    item ∈ pick count key ∅ (items.filter sharp) := by
  rw [mem_pick_iff] at taken ⊢
  obtain ⟨before, after, shape, fresh, less⟩ := taken
  have twice : (items.filter loose).filter sharp = items.filter sharp := by
    rw [List.filter_filter]
    apply List.filter_congr
    intro other member
    cases isSharp : sharp other with
    | true => simp [sharper other member isSharp]
    | false => simp
  have fewer : keysOf key (before.filter sharp) ⊆ keysOf key before := by
    intro value member
    obtain ⟨other, inFilter, isValue⟩ := mem_keysOf.mp member
    exact mem_keysOf.mpr ⟨other, List.mem_of_mem_filter inFilter, isValue⟩
  refine ⟨before.filter sharp, after.filter sharp, ?_, ?_, ?_⟩
  · rw [← twice, shape, List.filter_append, List.filter_cons_of_pos passes]
  · rw [Finset.empty_union] at fresh ⊢
    exact fun member => fresh (fewer member)
  · rw [Finset.empty_union] at less ⊢
    exact Nat.lt_of_le_of_lt (Finset.card_le_card fewer) (Nat.lt_of_lt_of_le less enough)

end DbBackup.Lib.Selection
