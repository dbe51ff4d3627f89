import Mathlib.Data.List.Basic

/-!
Owns edits of a text some of whose items are held: a held item stays where it
is, and new items are put only where items that are not held were taken away.

`Edited loose before after` reads both sides from the left; `loose` says whether
the place at hand is such a gap. Contract: edits compose (`Edited.trans`), and
the replacement of the matches of a pattern is an edit where every match that
touches a held item is replaced by itself (`edited_editFound`).
-/

namespace DbBackup.Lib.Edit

variable {α β : Type*}

inductive Edited : Bool → List (α × Bool) → List (α × Bool) → Prop where
  | nil (loose : Bool) : Edited loose [] []
  | keep (loose : Bool) (item : α × Bool) {before after : List (α × Bool)}
      (rest : Edited false before after) : Edited loose (item :: before) (item :: after)
  | drop (loose : Bool) (value : α) {before after : List (α × Bool)}
      (rest : Edited true before after) : Edited loose ((value, false) :: before) after
  | insert (value : α) {before after : List (α × Bool)}
      (rest : Edited true before after) : Edited true before ((value, false) :: after)

variable {loose : Bool}

theorem Edited.loosen {before after : List (α × Bool)}
    (edited : Edited loose before after) : Edited true before after := by
  cases edited with
  | nil => exact .nil true
  | keep _ item rest => exact .keep true item rest
  | drop _ value rest => exact .drop true value rest
  | insert value rest => exact .insert value rest

theorem Edited.weaken {before after : List (α × Bool)}
    (edited : Edited false before after) : Edited loose before after := by
  cases loose with
  | false => exact edited
  | true => exact edited.loosen

theorem Edited.keepAll {loose : Bool} (kept : List (α × Bool)) {before after : List (α × Bool)}
    (edited : Edited false before after) : Edited loose (kept ++ before) (kept ++ after) := by
  induction kept generalizing loose with
  | nil => exact edited.weaken
  | cons item kept ih => exact .keep loose item ih

theorem Edited.refl (items : List (α × Bool)) : Edited false items items := by
  have kept := @Edited.keepAll α false items [] [] (.nil false)
  rwa [List.append_nil] at kept

theorem Edited.insertAll (new : List α) {before after : List (α × Bool)}
    (edited : Edited true before after) : Edited true before (new.map (·, false) ++ after) := by
  induction new with
  | nil => exact edited
  | cons value new ih => exact .insert value ih

theorem Edited.dropAll {old : List (α × Bool)} (free : ∀ item ∈ old, item.2 = false)
    {before after : List (α × Bool)} (edited : Edited true before after) :
    Edited true (old ++ before) after := by
  induction old with
  | nil => exact edited
  | cons item old ih =>
    obtain ⟨value, held⟩ := item
    obtain rfl : held = false := free (value, held) List.mem_cons_self
    exact .drop true value
      (ih (List.forall_mem_cons.mp free).2)

/-- Items that are not held may be replaced by any others. -/
theorem Edited.replace {old : List (α × Bool)} (some : old ≠ [])
    (free : ∀ item ∈ old, item.2 = false) (new : List α) {before after : List (α × Bool)}
    (edited : Edited false before after) :
    Edited loose (old ++ before) (new.map (·, false) ++ after) := by
  cases old with
  | nil => exact absurd rfl some
  | cons item old =>
    obtain ⟨value, held⟩ := item
    obtain rfl : held = false := free (value, held) List.mem_cons_self
    refine .drop loose value (Edited.dropAll ?_ (edited.loosen.insertAll new))
    exact (List.forall_mem_cons.mp free).2

/-- Edits compose. A gap of either is a gap of the whole. -/
theorem Edited.trans {first second : Bool} {before middle after : List (α × Bool)}
    (edited : Edited first before middle) (more : Edited second middle after) :
    Edited (first || second) before after := by
  induction edited generalizing second after with
  | nil loose =>
    generalize shape : ([] : List (α × Bool)) = middle at more
    induction more with
    | nil _ => exact .nil _
    | keep => cases shape
    | drop => cases shape
    | insert value rest ih =>
      rw [Bool.or_true] at ih ⊢
      exact .insert value (ih shape)
  | drop loose value rest ih =>
    have whole := ih more
    rw [Bool.true_or] at whole
    exact .drop _ value whole
  | @keep loose item before middle rest ih =>
    generalize shape : item :: middle = text at more
    induction more with
    | nil _ => cases shape
    | keep _ other moreRest =>
      obtain ⟨rfl, rfl⟩ := List.cons.inj shape
      exact .keep _ item (ih moreRest)
    | drop _ value moreRest =>
      obtain ⟨rfl, rfl⟩ := List.cons.inj shape
      exact .drop _ value (ih moreRest)
    | insert value moreRest innerHypothesis =>
      rw [Bool.or_true] at innerHypothesis ⊢
      exact .insert value (innerHypothesis shape)
  | @insert value before middle rest ih =>
    generalize shape : (value, false) :: middle = text at more
    induction more with
    | nil _ => cases shape
    | keep _ other moreRest =>
      obtain ⟨rfl, rfl⟩ := List.cons.inj shape
      exact .insert value (ih moreRest)
    | drop _ other moreRest =>
      obtain ⟨-, rfl⟩ := List.cons.inj shape
      have whole := ih moreRest
      rwa [Bool.true_or] at whole ⊢
    | insert other moreRest innerHypothesis =>
      exact .insert other (innerHypothesis shape)

/-- An edit of a part of the text. -/
theorem Edited.appendRefl {before after : List (α × Bool)}
    (edited : Edited loose before after) (tail : List (α × Bool)) :
    Edited loose (before ++ tail) (after ++ tail) := by
  induction edited with
  | nil loose => exact (Edited.refl tail).weaken
  | keep loose item rest ih => exact .keep loose item ih
  | drop loose value rest ih => exact .drop loose value ih
  | insert value rest ih => exact .insert value ih

/-- The items in order, each spelled out. -/
def spell (letters : α → List β) (items : List (α × Bool)) : List (β × Bool) :=
  items.flatMap fun item => (letters item.1).map (·, item.2)

theorem Edited.spell {letters : α → List β} (some : ∀ value, letters value ≠ [])
    {before after : List (α × Bool)} (edited : Edited loose before after) :
    Edited loose (spell letters before) (spell letters after) := by
  have free (value : α) : ∀ item ∈ (letters value).map (·, false), item.2 = false := by
    intro item member
    obtain ⟨letter, -, rfl⟩ := List.mem_map.mp member
    rfl
  induction edited with
  | nil loose => exact .nil loose
  | keep loose item rest ih => exact ih.keepAll _
  | drop loose value rest ih =>
    cases shape : (letters value) with
    | nil => exact absurd shape (some value)
    | cons letter letters' =>
      have member := free value
      rw [shape] at member
      unfold Edit.spell
      rw [List.flatMap_cons, shape, List.map_cons]
      refine .drop loose letter (Edited.dropAll ?_ ih)
      exact (List.forall_mem_cons.mp member).2
  | insert value rest ih => exact ih.insertAll _

/-- The held items stay. -/
theorem Edited.held {before after : List (α × Bool)}
    (edited : Edited loose before after) : after.filter Prod.snd = before.filter Prod.snd := by
  induction edited with
  | nil loose => rfl
  | keep loose item rest ih =>
    rw [List.filter_cons, List.filter_cons, ih]
  | drop loose value rest ih => simpa using ih
  | insert value rest ih => simpa using ih

theorem Edited.held_sublist {before after : List (α × Bool)} (edited : Edited loose before after) :
    ((before.filter Prod.snd).map Prod.fst).Sublist (after.map Prod.fst) := by
  rw [← edited.held]
  exact List.filter_sublist.map Prod.fst

/-! ### Replacing matches -/

/-- What stands for the match at the beginning of a text, and how many items the
match has. -/
abbrev Finder (α : Type*) := List α → Option (List α × Nat)

/-- Every match from the left, replaced; `skip` counts the items of a match that
are still to be passed over. -/
def replaceFound (find : Finder α) : Nat → List α → List α
  | _, [] => []
  | skip + 1, _ :: rest => replaceFound find skip rest
  | 0, value :: rest =>
    match find (value :: rest) with
    | some (new, length + 1) => new ++ replaceFound find length rest
    | _ => value :: replaceFound find 0 rest

/-- The number of matches that are replaced. -/
def countFound (find : Finder α) : Nat → List α → Nat
  | _, [] => 0
  | skip + 1, _ :: rest => countFound find skip rest
  | 0, value :: rest =>
    match find (value :: rest) with
    | some (_, length + 1) => countFound find length rest + 1
    | _ => countFound find 0 rest

theorem replaceFound_of_match {find : Finder α} {value : α} {rest new : List α} {length : Nat}
    (found : find (value :: rest) = some (new, length + 1)) :
    replaceFound find 0 (value :: rest) = new ++ replaceFound find length rest := by
  rw [replaceFound, found]

variable [DecidableEq α]

/-- The same on a text with held items. A match that is replaced by itself
stays. -/
def editFound (find : Finder α) : Nat → List (α × Bool) → List (α × Bool)
  | _, [] => []
  | skip + 1, _ :: rest => editFound find skip rest
  | 0, item :: rest =>
    match find ((item :: rest).map Prod.fst) with
    | some (new, length + 1) =>
      let matched := item :: rest.take length
      if new = matched.map Prod.fst then matched ++ editFound find length rest
      else new.map (·, false) ++ editFound find length rest
    | _ => item :: editFound find 0 rest

/-- No match touches a held item, or it is replaced by itself. -/
def isClear (find : Finder α) : Nat → List (α × Bool) → Bool
  | _, [] => true
  | skip + 1, _ :: rest => isClear find skip rest
  | 0, item :: rest =>
    match find ((item :: rest).map Prod.fst) with
    | some (new, length + 1) =>
      let matched := item :: rest.take length
      (new = matched.map Prod.fst || matched.all fun item => !item.2) &&
        isClear find length rest
    | _ => isClear find 0 rest

theorem map_fst_editFound (find : Finder α) (skip : Nat) (items : List (α × Bool)) :
    (editFound find skip items).map Prod.fst = replaceFound find skip (items.map Prod.fst) := by
  fun_induction editFound find skip items with
  | case1 => simp [replaceFound]
  | case2 skip item rest ih => simpa [replaceFound] using ih
  | case3 item rest length matched found ih =>
    rw [List.map_append, ih]
    exact (replaceFound_of_match found).symm
  | case4 item rest new length found matched differs ih =>
    rw [List.map_append, ih, List.map_map]
    exact (congrArg (· ++ _) (List.map_id new)).trans (replaceFound_of_match found).symm
  | case5 item rest noMatch ih =>
    rw [List.map_cons, ih, List.map_cons, replaceFound]
    rw [List.map_cons] at noMatch
    split
    · rename_i new length found
      exact (noMatch new length found).elim
    · rfl

/-- Where it is clear, the replacement is an edit. -/
theorem edited_editFound {find : Finder α} {skip : Nat} {items : List (α × Bool)}
    (clear : isClear find skip items = true) :
    Edited false (items.drop skip) (editFound find skip items) := by
  fun_induction editFound find skip items with
  | case1 skip => simpa using Edited.nil false
  | case2 skip item rest ih => exact ih clear
  | case3 item rest length matched found ih =>
    rw [isClear, found] at clear
    have edited := ih (Bool.and_eq_true_iff.mp clear).2
    have shape : item :: rest = matched ++ rest.drop length := by
      rw [List.cons_append, List.take_append_drop]
    rw [List.drop_zero, shape]
    exact edited.keepAll matched
  | case4 item rest new length found matched differs ih =>
    rw [isClear, found] at clear
    have edited := ih (Bool.and_eq_true_iff.mp clear).2
    have free : ∀ other ∈ matched, other.2 = false := by
      intro other member
      have touched := (Bool.and_eq_true_iff.mp clear).1
      rw [decide_eq_false differs, Bool.false_or] at touched
      exact (Bool.not_eq_true' other.2).mp (List.all_eq_true.mp touched other member)
    have shape : item :: rest = matched ++ rest.drop length := by
      rw [List.cons_append, List.take_append_drop]
    rw [List.drop_zero, shape]
    exact edited.replace (List.cons_ne_nil _ _) free new
  | case5 item rest noMatch ih =>
    refine .keep false item (ih ?_)
    rw [isClear] at clear
    split at clear
    · rename_i new length found
      exact (noMatch new length found).elim
    · exact clear

end DbBackup.Lib.Edit
