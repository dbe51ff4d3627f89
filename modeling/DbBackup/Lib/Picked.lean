import Mathlib.Data.List.Count

/-!
Owns the comparison of two selections of a list that are seen through a
function: where one of them depends only on what is seen, they look alike
exactly when they are the same.
-/

namespace DbBackup.Lib.Picked

variable {α β : Type*} [DecidableEq β]

theorem count_map_filter (seen : α → β) (pick : α → Bool) (value : β) (items : List α) :
    ((items.filter pick).map seen).count value =
      ((items.filter (seen · = value)).filter pick).length := by
  rw [List.count_eq_countP, List.countP_map, List.countP_eq_length_filter, List.filter_filter,
    List.filter_filter]
  congr 1
  apply List.filter_congr
  intro item _
  rw [Bool.and_comm]
  rfl

theorem map_filter_eq_iff (seen : α → β) (shown : β → Bool) (pick : α → Bool) (items : List α) :
    (items.filter fun item => shown (seen item)).map seen = (items.filter pick).map seen ↔
      ∀ item ∈ items, shown (seen item) = pick item := by
  constructor
  · intro alike item member
    cases isShown : shown (seen item) with
    | true =>
      -- All items that look like this one are shown, so as many are picked.
      have counts := congrArg (List.count (seen item)) alike
      rw [count_map_filter, count_map_filter] at counts
      have allShown : ((items.filter (seen · = seen item)).filter
          fun other => shown (seen other)) = items.filter (seen · = seen item) := by
        apply List.filter_eq_self.mpr
        intro other isAlike
        have same : seen other = seen item := by simpa using (List.mem_filter.mp isAlike).2
        rw [same, isShown]
      rw [allShown] at counts
      have picked := List.length_filter_eq_length_iff.mp counts.symm item
      exact (picked (by simpa using member)).symm
    | false =>
      cases isPicked : pick item with
      | false => rfl
      | true =>
        have inPicked : seen item ∈ (items.filter pick).map seen :=
          List.mem_map_of_mem (List.mem_filter.mpr ⟨member, isPicked⟩)
        rw [← alike] at inPicked
        obtain ⟨other, inShown, same⟩ := List.mem_map.mp inPicked
        have otherShown := (List.mem_filter.mp inShown).2
        rw [same, isShown] at otherShown
        cases otherShown
  · intro same
    rw [List.filter_congr same]

end DbBackup.Lib.Picked
