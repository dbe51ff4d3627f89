import Mathlib.Order.RelClasses
import Mathlib.Tactic.Common

/-!
Owns the runs of a system given by a step relation: what a run keeps
(`invariant_of_reaches`), and that no run goes on for ever when each step from a state with the
invariant makes a measure smaller (`ends_of_measure`), so that it comes to a state without a step
(`exists_stuck`).
-/

namespace DbBackup.Lib.Reach

open Relation

variable {State : Type*} {Step : State → State → Prop} {Inv : State → Prop}

theorem invariant_of_reaches (keeps : ∀ s t, Step s t → Inv s → Inv t) {s t : State}
    (run : ReflTransGen Step s t) (initially : Inv s) : Inv t := by
  induction run with
  | refl => exact initially
  | tail _ step ih => exact keeps _ _ step ih

/-- Every run from here ends. -/
def Ends (Step : State → State → Prop) (s : State) : Prop :=
  Acc (fun after before => Step before after) s

theorem ends_of_measure (keeps : ∀ s t, Step s t → Inv s → Inv t) (measure : State → Nat)
    (less : ∀ s t, Step s t → Inv s → measure t < measure s) {s : State} (initially : Inv s) :
    Ends Step s := by
  induction value : measure s using Nat.strongRecOn generalizing s with
  | _ _ ih =>
    refine Acc.intro s fun t step => ?_
    exact ih (measure t) (value ▸ less s t step initially)
      (keeps s t step initially) rfl

/-- A run that must end comes to a state without a step. -/
theorem exists_stuck {s : State} (ends : Ends Step s) :
    ∃ t, ReflTransGen Step s t ∧ ∀ u, ¬ Step t u := by
  induction ends with
  | intro s _ ih =>
    by_cases more : ∃ t, Step s t
    · obtain ⟨t, step⟩ := more
      obtain ⟨last, run, stuck⟩ := ih t step
      exact ⟨last, .head step run, stuck⟩
    · exact ⟨s, .refl, fun u step => more ⟨u, step⟩⟩

end DbBackup.Lib.Reach
