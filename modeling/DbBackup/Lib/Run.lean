import Mathlib.Order.Basic

/-!
Owns runs of a deterministic system: a step function folded over a list of
events, conditions that every step of a run meets, and the rules by which this
development reasons about whole runs.

`invariant_run` is the usual induction, `invariant_run_of_everyStep` the same
under a condition on every step. `good_run_iff` is its sharp form for a
property that a bad step destroys for good: the property holds at the end of a
run exactly if every step of the run was a safe one.
-/

namespace DbBackup.Lib.Run

variable {State Event : Type*} {step : State → Event → State}

def run (step : State → Event → State) (start : State) (events : List Event) : State :=
  events.foldl step start

/-- `Safe` holds of every step, judged in the state the step starts from. -/
def EveryStep (step : State → Event → State) (Safe : State → Event → Prop) :
    State → List Event → Prop
  | _, [] => True
  | state, event :: rest => Safe state event ∧ EveryStep step Safe (step state event) rest

def decidableEveryStep {Safe : State → Event → Prop}
    (decide : ∀ state event, Decidable (Safe state event)) :
    ∀ start events, Decidable (EveryStep step Safe start events)
  | _, [] => .isTrue trivial
  | start, event :: rest =>
    @instDecidableAnd _ _ (decide start event) (decidableEveryStep decide (step start event) rest)

instance {Safe : State → Event → Prop} [decide : ∀ state event, Decidable (Safe state event)]
    (start : State) (events : List Event) : Decidable (EveryStep step Safe start events) :=
  decidableEveryStep decide start events

variable (state : State)

@[simp] theorem run_nil : run step state [] = state := rfl

@[simp] theorem run_cons (event : Event) (rest : List Event) :
    run step state (event :: rest) = run step (step state event) rest := rfl

theorem run_append (first second : List Event) :
    run step state (first ++ second) = run step (run step state first) second :=
  List.foldl_append ..

theorem invariant_run {Inv : State → Prop} (keeps : ∀ state event, Inv state → Inv (step state event))
    {start : State} (initially : Inv start) (events : List Event) : Inv (run step start events) := by
  induction events generalizing start with
  | nil => exact initially
  | cons event rest ih => exact ih (keeps start event initially)

variable {start : State}

/-- An invariant that only the safe steps keep holds after a run of safe steps. -/
theorem invariant_run_of_everyStep {Inv : State → Prop} {Safe : State → Event → Prop}
    (keeps : ∀ state event, Inv state → Safe state event → Inv (step state event))
    (initially : Inv start) {events : List Event}
    (safe : EveryStep step Safe start events) : Inv (run step start events) := by
  induction events generalizing start with
  | nil => exact initially
  | cons event rest ih =>
    exact ih (keeps start event initially safe.1) safe.2

theorem EveryStep.and {First Second : State → Event → Prop} {events : List Event}
    (first : EveryStep step First start events) (second : EveryStep step Second start events) :
    EveryStep step (fun state event => First state event ∧ Second state event) start events := by
  induction events generalizing start with
  | nil => trivial
  | cons event rest ih =>
    exact ⟨⟨first.1, second.1⟩, ih first.2 second.2⟩

/-- What is lost once stays lost. -/
theorem lost_run {Inv Good : State → Prop}
    (invariant : ∀ state event, Inv state → Inv (step state event))
    (stays : ∀ state event, Inv state → ¬ Good state → ¬ Good (step state event))
    (initially : Inv start) (lost : ¬ Good start) (events : List Event) :
    ¬ Good (run step start events) := by
  have both : ∀ state event, Inv state ∧ ¬ Good state →
      Inv (step state event) ∧ ¬ Good (step state event) := fun state event holds =>
    ⟨invariant state event holds.1, stays state event holds.1 holds.2⟩
  exact (invariant_run both ⟨initially, lost⟩ events).2

theorem good_run_iff {Inv Good : State → Prop} {Safe : State → Event → Prop}
    (invariant : ∀ state event, Inv state → Inv (step state event))
    (keeps : ∀ state event, Inv state → Good state → Safe state event → Good (step state event))
    (breaks : ∀ state event, Inv state → ¬ Safe state event → ¬ Good (step state event))
    (stays : ∀ state event, Inv state → ¬ Good state → ¬ Good (step state event))
    (initially : Inv start) (good : Good start) (events : List Event) :
    Good (run step start events) ↔ EveryStep step Safe start events := by
  induction events generalizing start with
  | nil => simp [EveryStep, good]
  | cons event rest ih =>
    rw [run_cons, EveryStep]
    have stepped := invariant start event initially
    by_cases safe : Safe start event
    · rw [ih stepped (keeps start event initially good safe)]
      simp [safe]
    · have broken := lost_run invariant stays stepped (breaks start event initially safe) rest
      simp [broken, safe]

end DbBackup.Lib.Run
