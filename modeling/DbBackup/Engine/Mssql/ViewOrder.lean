import DbBackup.Engine.Mssql.Dump
import Mathlib.Order.Preorder.Finite

/-!
Owns the loop of `orderViewsByDependency` as the source writes it: passes over the
names until as many views are emitted as there are names.

Contract: the loop ends, with a permutation in which views follow what they depend
on, exactly when no name is listed twice (`orders_iff`). Emitted views are tracked by
name, so of two views of one name only one is emitted, the exit test never holds, and
the loop does not end.

`orderViewsByDependency` of `DbBackup.Engine.Mssql.Dump` is this loop on distinct
names (`runViews_eq_of_nodup`).
-/

set_option linter.all false

namespace DbBackup.Engine.Mssql

open Relation

/-! ### The loop -/

/-- `needs[name]`: both views are listed and differ. -/
def viewNeeds (names : List String) (deps : List (String × String)) (name : String) :
    List String :=
  (deps.filter fun dep =>
    dep.1 = name && dep.1 ≠ dep.2 && names.contains dep.1 && names.contains dep.2).map Prod.snd

/-- Without progress, every view that is not done is emitted in name order. -/
def emitRest (names out : List String) : List String :=
  names.foldl (fun out name => if out.contains name then out else out ++ [name]) out

/-- A turn of the outer loop. The views that are done are those in `out`. -/
def orderTurn (needs : String → List String) (names out : List String) : List String :=
  let next := orderPass needs names out
  if next.length = out.length then emitRest names out else next

/-- `none`: the loop still runs after `fuel` turns. -/
def viewLoop (needs : String → List String) (names : List String) :
    Nat → List String → Option (List String)
  | 0, out => if out.length < names.length then none else some out
  | fuel + 1, out =>
    if out.length < names.length then viewLoop needs names fuel (orderTurn needs names out)
    else some out

def runViews (fuel : Nat) (names : List String) (deps : List (String × String)) :
    Option (List String) :=
  viewLoop (viewNeeds names deps) names fuel []

/-- A dependency between two listed views. -/
def Depends (names : List String) (deps : List (String × String)) (view base : String) : Prop :=
  (view, base) ∈ deps ∧ view ∈ names ∧ base ∈ names

def AcyclicViews (names : List String) (deps : List (String × String)) : Prop :=
  ∀ view, ¬ TransGen (Depends names deps) view view

/-- Every view of `out` stands after the views it needs. -/
def Follows (needs : String → String → Prop) (out : List String) : Prop :=
  ∀ before view after, out = before ++ view :: after → ∀ base, needs view base → base ∈ before

/-- What is asked of the ordering. -/
def Orders (names : List String) (deps : List (String × String)) : Prop :=
  ∃ fuel out, runViews fuel names deps = some out ∧ out.Perm names ∧
    (AcyclicViews names deps → Follows (Depends names deps) out)

/-! ### One pass -/

variable {needs : String → List String} {names : List String}

/-- `next` is `out` with some of the names that it lacked, each once. -/
structure Grown (names out next : List String) : Prop where
  isPrefix : out <+: next
  nodup : out.Nodup → next.Nodup
  listed : (∀ name ∈ out, name ∈ names) → ∀ name ∈ next, name ∈ names

theorem Grown.refl (names out : List String) : Grown names out out :=
  ⟨List.prefix_rfl, fun isNodup => isNodup, fun listed => listed⟩

theorem Grown.trans {first second third : List String} (one : Grown names first second)
    (two : Grown names second third) : Grown names first third :=
  ⟨one.isPrefix.trans two.isPrefix, fun isNodup => two.nodup (one.nodup isNodup),
    fun listed => two.listed (one.listed listed)⟩

variable {out : List String} {name : String}

theorem Grown.concat (isName : name ∈ names)
    (isNew : name ∉ out) : Grown names out (out ++ [name]) := by
  refine ⟨List.prefix_append out [name], ?_, ?_⟩
  · intro isNodup
    exact List.nodup_append.mpr ⟨isNodup, List.nodup_singleton name, by
      intro a inOut b inSingle same
      exact isNew (List.mem_singleton.mp inSingle ▸ same ▸ inOut)⟩
  · intro listed other member
    rcases List.mem_append.mp member with inOut | inSingle
    · exact listed other inOut
    · exact List.mem_singleton.mp inSingle ▸ isName

/-- The step of `orderPass`. -/
def passStep (needs : String → List String) (done : List String) (name : String) :
    List String :=
  if done.contains name then done
  else if (needs name).all done.contains then done ++ [name] else done

theorem passStep_cases (needs : String → List String) (done : List String) (name : String) :
    (name ∈ done ∧ passStep needs done name = done) ∨
    (name ∉ done ∧ (∀ base ∈ needs name, base ∈ done) ∧
      passStep needs done name = done ++ [name]) ∨
    (name ∉ done ∧ (∃ base ∈ needs name, base ∉ done) ∧ passStep needs done name = done) := by
  by_cases isDone : name ∈ done
  · exact .inl ⟨isDone, if_pos (by simpa using isDone)⟩
  · have notContained : ¬ done.contains name = true := by simpa using isDone
    by_cases ready : ∀ base ∈ needs name, base ∈ done
    · refine .inr (.inl ⟨isDone, ready, ?_⟩)
      rw [passStep, if_neg notContained, if_pos (by simpa using ready)]
    · refine .inr (.inr ⟨isDone, by simpa using ready, ?_⟩)
      rw [passStep, if_neg notContained, if_neg (by simpa using ready)]

theorem passStep_grown (done : List String) {name : String} (isName : name ∈ names) :
    Grown names done (passStep needs done name) := by
  rcases passStep_cases needs done name with ⟨-, same⟩ | ⟨isNew, -, added⟩ | ⟨-, -, same⟩
  · rw [same]
    exact .refl names done
  · rw [added]
    exact .concat isName isNew
  · rw [same]
    exact .refl names done

theorem orderPass_cons (name : String) (rest done : List String) :
    orderPass needs (name :: rest) done = orderPass needs rest (passStep needs done name) := rfl

theorem emitRest_eq (names out : List String) :
    emitRest names out = orderPass (fun _ => []) names out := rfl

theorem orderPass_grown (names : List String) :
    ∀ (part : List String), (∀ name ∈ part, name ∈ names) →
      ∀ done, Grown names done (orderPass needs part done) := by
  intro part
  induction part with
  | nil => exact fun _ done => .refl names done
  | cons name rest ih =>
    intro listed done
    rw [orderPass_cons]
    have restListed : ∀ other ∈ rest, other ∈ names :=
      (List.forall_mem_cons.mp listed).2
    exact (passStep_grown done (listed name List.mem_cons_self)).trans
      (ih restListed _)

/-- A name whose needs are done when the pass starts is done when it ends. -/
theorem mem_orderPass (part : List String) :
    ∀ {done : List String}, name ∈ part → (∀ base ∈ needs name, base ∈ done) →
      name ∈ orderPass needs part done := by
  induction part with
  | nil => exact fun member => absurd member List.not_mem_nil
  | cons first rest ih =>
    intro done member ready
    rw [orderPass_cons]
    have grown := @orderPass_grown needs rest rest (fun _ inRest => inRest)
      (passStep needs done first)
    rcases List.mem_cons.mp member with rfl | inRest
    · refine grown.isPrefix.subset ?_
      rcases passStep_cases needs done name with ⟨isDone, same⟩ | ⟨-, -, added⟩ | ⟨-, missing, -⟩
      · rw [same]
        exact isDone
      · rw [added]
        exact List.mem_append_right _ (List.mem_singleton_self name)
      · obtain ⟨base, isNeed, notDone⟩ := missing
        exact absurd (ready base isNeed) notDone
    · refine ih inRest fun base isNeed => ?_
      have kept := (@passStep_grown needs _ done _ (List.mem_singleton_self first)).isPrefix
      exact kept.subset (ready base isNeed)

/-! ### Order within a pass -/

theorem Follows.concat {depends : String → String → Prop} (follows : Follows depends out)
    (ready : ∀ base, depends name base → base ∈ out) : Follows depends (out ++ [name]) := by
  intro before view after split base isNeed
  rcases List.eq_nil_or_concat after with rfl | ⟨front, last, rfl⟩
  · obtain ⟨rfl, sameView⟩ := List.append_inj' split rfl
    obtain ⟨rfl, -⟩ := List.cons.inj sameView
    exact ready base isNeed
  · have shape : out ++ [name] = (before ++ view :: front) ++ [last] := by
      rw [split]
      simp
    obtain ⟨isOut, -⟩ := List.append_inj' shape rfl
    exact follows before view front isOut base isNeed

theorem orderPass_follows {depends : String → String → Prop}
    (isNeed : ∀ view base, depends view base → base ∈ needs view) (part : List String) :
    ∀ {done : List String}, Follows depends done → Follows depends (orderPass needs part done) := by
  induction part with
  | nil => exact fun follows => follows
  | cons name rest ih =>
    intro done follows
    rw [orderPass_cons]
    refine ih ?_
    rcases passStep_cases needs done name with ⟨-, same⟩ | ⟨-, ready, added⟩ | ⟨-, -, same⟩
    · exact same.symm ▸ follows
    · rw [added]
      exact follows.concat fun base need => ready base (isNeed name base need)
    · exact same.symm ▸ follows

/-! ### One turn -/

/-- What holds of the emitted views at every turn. -/
structure Emitted (names out : List String) : Prop where
  nodup : out.Nodup
  listed : ∀ name ∈ out, name ∈ names

theorem orderTurn_grown (out : List String) : Grown names out (orderTurn needs names out) := by
  rw [orderTurn]
  split
  · rw [emitRest_eq]
    exact orderPass_grown names names (fun _ member => member) out
  · exact orderPass_grown names names (fun _ member => member) out

theorem Emitted.turn (emitted : Emitted names out) : Emitted names (orderTurn needs names out) :=
  ⟨(orderTurn_grown out).nodup emitted.nodup, (orderTurn_grown out).listed emitted.listed⟩

/-- As many views as names were emitted: each name once. -/
theorem Emitted.perm (emitted : Emitted names out)
    (full : names.length ≤ out.length) : out.Perm names :=
  (List.subperm_of_subset emitted.nodup emitted.listed).perm_of_length_le full

/-- Fewer views than distinct names were emitted: a name is missing. -/
theorem exists_missing (distinct : names.Nodup)
    (short : out.length < names.length) : ∃ name ∈ names, name ∉ out := by
  by_contra none
  have covered : ∀ name ∈ names, name ∈ out := by
    intro name isName
    by_contra notOut
    exact none ⟨name, isName, notOut⟩
  exact absurd (List.subperm_of_subset distinct covered).length_le (Nat.not_le_of_lt short)

theorem length_lt_of_grown {out next : List String} (grown : Grown names out next)
    (isNew : name ∉ out) (added : name ∈ next) : out.length < next.length := by
  refine Nat.lt_of_le_of_ne grown.isPrefix.length_le fun same => ?_
  have isOut : out = next := grown.isPrefix.eq_of_length same
  exact isNew (isOut ▸ added)

/-- A turn that starts with a name missing emits a view: a pass that emits none is
followed by `emitRest`. -/
theorem length_lt_orderTurn {out : List String} {name : String} (isName : name ∈ names)
    (isNew : name ∉ out) : out.length < (orderTurn needs names out).length := by
  rw [orderTurn]
  split
  · rw [emitRest_eq]
    exact length_lt_of_grown (orderPass_grown names names (fun _ member => member) out) isNew
      (mem_orderPass names isName fun _ member => absurd member List.not_mem_nil)
  · next progress =>
      have grown := @orderPass_grown needs names names (fun _ member => member) out
      exact Nat.lt_of_le_of_ne grown.isPrefix.length_le fun same => progress same.symm

/-! ### The whole loop -/

theorem viewLoop_of_full (full : names.length ≤ out.length) (fuel : Nat) :
    viewLoop needs names fuel out = some out := by
  cases fuel with
  | zero => exact if_neg (Nat.not_lt_of_le full)
  | succ fuel => exact if_neg (Nat.not_lt_of_le full)

theorem viewLoop_emitted (fuel : Nat) :
    ∀ {out result : List String}, viewLoop needs names fuel out = some result →
      Emitted names out → Emitted names result ∧ names.length ≤ result.length := by
  induction fuel with
  | zero =>
    intro out result ran emitted
    by_cases short : out.length < names.length
    · rw [viewLoop, if_pos short] at ran
      exact absurd ran (Option.some_ne_none _).symm
    · rw [viewLoop, if_neg short] at ran
      rw [← Option.some.inj ran]
      exact ⟨emitted, Nat.le_of_not_lt short⟩
  | succ fuel ih =>
    intro out result ran emitted
    by_cases short : out.length < names.length
    · rw [viewLoop, if_pos short] at ran
      exact ih ran emitted.turn
    · rw [viewLoop, if_neg short] at ran
      rw [← Option.some.inj ran]
      exact ⟨emitted, Nat.le_of_not_lt short⟩

theorem emitted_nil (names : List String) : Emitted names [] :=
  ⟨List.nodup_nil, fun _ member => absurd member List.not_mem_nil⟩

variable {deps : List (String × String)}

/-- The exit test holds only where every name was emitted once. -/
theorem runViews_perm {fuel : Nat}
    (ran : runViews fuel names deps = some out) : out.Perm names ∧ out.Nodup := by
  obtain ⟨emitted, full⟩ := viewLoop_emitted fuel ran (emitted_nil names)
  exact ⟨emitted.perm full, emitted.nodup⟩

theorem runViews_none_of_repeated (repeated : ¬ names.Nodup) (deps : List (String × String))
    (fuel : Nat) : runViews fuel names deps = none := by
  cases ran : runViews fuel names deps with
  | none => rfl
  | some out =>
    obtain ⟨isPerm, isNodup⟩ := runViews_perm ran
    exact absurd (isPerm.nodup_iff.mp isNodup) repeated

theorem emitRest_of_nodup (part : List String) : ∀ {out : List String}, part.Nodup →
      emitRest part out = out ++ part.filter fun name => !out.contains name := by
  induction part with
  | nil => exact fun _ => (List.append_nil _).symm
  | cons name rest ih =>
    intro out distinct
    obtain ⟨notRest, restDistinct⟩ := List.nodup_cons.mp distinct
    rw [emitRest, List.foldl_cons, ← emitRest, ih restDistinct,
      List.filter_cons]
    by_cases isDone : out.contains name = true
    · rw [if_pos isDone, isDone, if_neg (by decide)]
    · rw [if_neg isDone, if_pos (by simpa using isDone), List.append_assoc,
        List.singleton_append]
      congr 2
      refine List.filter_congr fun other inRest => ?_
      have differs : other ≠ name := fun same => notRest (same ▸ inRest)
      simp [differs]

/-- On distinct names the loop ends after at most as many turns as there are names. -/
theorem viewLoop_eq_orderLoop (distinct : names.Nodup) (fuel : Nat) :
    ∀ {out : List String}, Emitted names out → names.length ≤ out.length + fuel →
      viewLoop needs names fuel out = some (orderLoop needs names fuel out) := by
  induction fuel with
  | zero =>
    intro out emitted enough
    exact viewLoop_of_full enough 0
  | succ fuel ih =>
    intro out emitted enough
    by_cases short : out.length < names.length
    · obtain ⟨name, isName, isNew⟩ := exists_missing distinct short
      have longer := @length_lt_orderTurn needs names out name isName isNew
      rw [viewLoop, if_pos short, orderLoop, if_pos short]
      by_cases stuck : (orderPass needs names out).length = out.length
      · have turn : orderTurn needs names out = emitRest names out := if_pos stuck
        have allEmitted : ∀ other ∈ names, other ∈ emitRest names out := by
          intro other isOther
          rw [emitRest_eq]
          exact mem_orderPass names isOther fun _ member => absurd member List.not_mem_nil
        have full : names.length ≤ (emitRest names out).length :=
          (List.subperm_of_subset distinct allEmitted).length_le
        simp only [if_pos stuck]
        rw [turn, viewLoop_of_full full, emitRest_of_nodup names distinct]
      · have turn : orderTurn needs names out = orderPass needs names out := if_neg stuck
        simp only [if_neg stuck]
        rw [turn] at longer ⊢
        exact ih (turn ▸ emitted.turn) (by omega)
    · rw [viewLoop_of_full (Nat.le_of_not_lt short), orderLoop, if_neg short]

theorem runViews_eq_of_nodup (distinct : names.Nodup) (deps : List (String × String)) :
    runViews names.length names deps = some (orderViewsByDependency names deps) :=
  viewLoop_eq_orderLoop distinct names.length (emitted_nil names) (by simp)

/-! ### Order of the result -/

theorem mem_viewNeeds {view base : String} :
    base ∈ viewNeeds names deps view ↔ Depends names deps view base ∧ view ≠ base := by
  simp only [viewNeeds, List.mem_map, List.mem_filter, Prod.exists, Bool.and_eq_true,
    decide_eq_true_eq, List.contains_iff_mem, Depends]
  constructor
  · rintro ⟨a, b, ⟨isDep, ⟨⟨rfl, differ⟩, aListed⟩, bListed⟩, rfl⟩
    exact ⟨⟨isDep, aListed, bListed⟩, differ⟩
  · rintro ⟨⟨isDep, viewListed, baseListed⟩, differ⟩
    exact ⟨view, base, ⟨isDep, ⟨⟨rfl, differ⟩, viewListed⟩, baseListed⟩, rfl⟩

theorem depends_ne (acyclic : AcyclicViews names deps)
    {view base : String} (depends : Depends names deps view base) : view ≠ base := by
  rintro rfl
  exact acyclic view (.single depends)

/-- Of the missing views one needs no missing view, or following needs would go on for
ever among finitely many names. -/
theorem exists_ready (acyclic : AcyclicViews names deps)  (missing : ∃ name ∈ names, name ∉ out) :
    ∃ name ∈ names, name ∉ out ∧ ∀ base ∈ viewNeeds names deps name, base ∈ out := by
  let Lower (base view : {name // name ∈ names}) : Prop :=
    TransGen (Depends names deps) view.1 base.1
  have transitive : IsTrans _ Lower := ⟨fun _ _ _ low high => high.trans low⟩
  have irreflexive : Std.Irrefl Lower := ⟨fun view => acyclic view.1⟩
  have finite : Finite {name // name ∈ names} := List.finite_toSet names
  have wellFounded : WellFounded Lower := Finite.wellFounded_of_trans_of_irrefl Lower
  obtain ⟨start, startListed, startMissing⟩ := missing
  obtain ⟨⟨name, isName⟩, nameMissing, least⟩ :=
    wellFounded.has_min (fun view : {name // name ∈ names} => view.1 ∉ out)
      ⟨⟨start, startListed⟩, startMissing⟩
  refine ⟨name, isName, nameMissing, fun base isNeed => ?_⟩
  have depends := (mem_viewNeeds.mp isNeed).1
  by_contra baseMissing
  exact least ⟨base, depends.2.2⟩ baseMissing (.single depends)

theorem viewLoop_follows (acyclic : AcyclicViews names deps) (distinct : names.Nodup) (fuel : Nat) :
    ∀ {out result : List String}, viewLoop (viewNeeds names deps) names fuel out = some result →
      Follows (Depends names deps) out → Follows (Depends names deps) result := by
  induction fuel with
  | zero =>
    intro out result ran follows
    by_cases short : out.length < names.length
    · rw [viewLoop, if_pos short] at ran
      exact absurd ran (Option.some_ne_none _).symm
    · rw [viewLoop, if_neg short] at ran
      exact Option.some.inj ran ▸ follows
  | succ fuel ih =>
    intro out result ran follows
    by_cases short : out.length < names.length
    · rw [viewLoop, if_pos short] at ran
      obtain ⟨name, isName, isNew, ready⟩ :=
        exists_ready acyclic (exists_missing distinct short)
      have grown := @orderPass_grown (viewNeeds names deps) names names
        (fun _ member => member) out
      have progress := length_lt_of_grown grown isNew (mem_orderPass names isName ready)
      have turn : orderTurn (viewNeeds names deps) names out =
          orderPass (viewNeeds names deps) names out := if_neg (Nat.ne_of_gt progress)
      rw [turn] at ran
      refine ih ran (orderPass_follows ?_ names follows)
      exact fun view base depends => mem_viewNeeds.mpr ⟨depends, depends_ne acyclic depends⟩
    · rw [viewLoop, if_neg short] at ran
      exact Option.some.inj ran ▸ follows

/-! ### When the views are ordered -/

theorem orders_of_nodup (distinct : names.Nodup) (deps : List (String × String)) :
    Orders names deps := by
  have ran := runViews_eq_of_nodup distinct deps
  refine ⟨names.length, _, ran, (runViews_perm ran).1, fun acyclic => ?_⟩
  refine viewLoop_follows acyclic distinct names.length ran ?_
  intro before view after split
  exact absurd split.symm (by simp)

theorem orders_iff (names : List String) (deps : List (String × String)) :
    Orders names deps ↔ names.Nodup := by
  constructor
  · rintro ⟨fuel, out, ran, -, -⟩
    obtain ⟨isPerm, isNodup⟩ := runViews_perm ran
    exact isPerm.nodup_iff.mp isNodup
  · exact fun distinct => orders_of_nodup distinct deps

/-- `sales.totals` and `hr.totals` are both selected as `totals`. -/
theorem repeated_never_ends :
    (∀ fuel, runViews fuel ["totals", "totals"] [] = none) ∧
      ¬ Orders ["totals", "totals"] [] := by
  have never := @runViews_none_of_repeated ["totals", "totals"] (by decide) []
  refine ⟨never, ?_⟩
  rintro ⟨fuel, out, ran, -, -⟩
  rw [never fuel] at ran
  exact absurd ran (Option.some_ne_none _).symm

end DbBackup.Engine.Mssql
