import Mathlib.Data.Finset.Card

/-!
Owns the walk over a functional graph `next : α → Option α`: the marking loop
that follows links until it meets an end or a marked node, and the exact set
that loop marks.

A link may dangle (lead to a node without a link of its own) and links may
form cycles. The loop is written with fuel; `mem_mark_iff` needs only that
the fuel exceeds the number of unmarked nodes that have a link, so a caller
who supplies the size of a finite carrier never runs out.
-/

namespace DbBackup.Lib.LinkGraph

open Relation

variable {α : Type*}

def Link (next : α → Option α) (source target : α) : Prop :=
  next source = some target

def Closed (next : α → Option α) (marked : Finset α) : Prop :=
  ∀ node ∈ marked, ∀ target, Link next node target → target ∈ marked

theorem Closed.mem_of_reaches {next : α → Option α} {marked : Finset α}
    (closed : Closed next marked) {source target : α} (member : source ∈ marked)
    (reaches : ReflTransGen (Link next) source target) : target ∈ marked := by
  induction reaches with
  | refl => exact member
  | tail _ link ih => exact closed _ ih _ link

/-! ### Marking along one path -/

section Mark

variable [DecidableEq α] (next : α → Option α)

/-- Follow links from `start`, marking every node, until the path ends or
reaches a node that is already marked. -/
def mark : Nat → Option α → Finset α → Finset α
  | _, none, marked => marked
  | 0, some _, marked => marked
  | fuel + 1, some node, marked =>
    if node ∈ marked then marked
    else mark fuel (next node) (insert node marked)

def unmarked (carrier marked : Finset α) : Nat :=
  (carrier \ marked).card

variable {next}

@[simp] theorem mark_none (fuel : Nat) (marked : Finset α) :
    mark next fuel none marked = marked := by
  cases fuel <;> rfl

theorem subset_mark (fuel : Nat) (start : Option α) (marked : Finset α) :
    marked ⊆ mark next fuel start marked := by
  induction fuel generalizing start marked with
  | zero => cases start <;> simp [mark]
  | succ fuel ih =>
    cases start with
    | none => simp
    | some node =>
      simp only [mark]
      split
      · exact Finset.Subset.refl _
      · exact (Finset.subset_insert node marked).trans (ih _ _)

theorem unmarked_insert_lt {carrier marked : Finset α} {node : α}
    (inCarrier : node ∈ carrier) (fresh : node ∉ marked) :
    unmarked carrier (insert node marked) < unmarked carrier marked := by
  apply Finset.card_lt_card
  refine Finset.ssubset_iff_subset_ne.mpr ⟨?_, fun same => ?_⟩
  · exact Finset.sdiff_subset_sdiff (Finset.Subset.refl _) (Finset.subset_insert node marked)
  · have inRest : node ∈ carrier \ marked := Finset.mem_sdiff.mpr ⟨inCarrier, fresh⟩
    rw [← same] at inRest
    simp at inRest

theorem reaches_of_mem_mark {fuel : Nat} {start : Option α} {marked : Finset α} {target : α}
    (member : target ∈ mark next fuel start marked) :
    target ∈ marked ∨ ∃ node, start = some node ∧ ReflTransGen (Link next) node target := by
  induction fuel generalizing start marked with
  | zero =>
    left
    cases start <;> simpa [mark] using member
  | succ fuel ih =>
    cases start with
    | none => simpa using member
    | some node =>
      simp only [mark] at member
      split at member
      · exact Or.inl member
      · rcases ih member with old | ⟨following, isNext, path⟩
        · rcases Finset.mem_insert.mp old with rfl | old
          · exact Or.inr ⟨target, rfl, .refl⟩
          · exact Or.inl old
        · exact Or.inr ⟨node, rfl, .head isNext path⟩

/-- The loop invariant: every marked node's link stays inside the marked set,
except that the last marked node may lead to the node about to be visited. -/
def ClosedUpTo (next : α → Option α) (start : Option α) (marked : Finset α) : Prop :=
  ∀ node ∈ marked, ∀ target, Link next node target → target ∈ marked ∨ start = some target

theorem ClosedUpTo.insert {node : α} {marked : Finset α}
    (closed : ClosedUpTo next (some node) marked) :
    ClosedUpTo next (next node) (insert node marked) := by
  intro source member target link
  rcases Finset.mem_insert.mp member with rfl | old
  · exact Or.inr link
  · rcases closed source old target link with inside | isNode
    · exact Or.inl (Finset.mem_insert_of_mem inside)
    · left
      rw [Option.some.inj isNode]
      exact Finset.mem_insert_self target marked

/-- With enough fuel the loop reaches its start node and leaves a closed set. -/
theorem mark_closed {carrier : Finset α} (hasLink : ∀ node, next node ≠ none → node ∈ carrier)
    {fuel : Nat} {start : Option α} {marked : Finset α}
    (closed : ClosedUpTo next start marked) (enough : unmarked carrier marked < fuel) :
    (∀ node, start = some node → node ∈ mark next fuel start marked) ∧
      Closed next (mark next fuel start marked) := by
  induction fuel generalizing start marked with
  | zero => omega
  | succ fuel ih =>
    cases start with
    | none =>
      refine ⟨by simp, fun node member target link => ?_⟩
      rw [mark_none] at member ⊢
      simpa using closed node member target link
    | some node =>
      simp only [mark]
      split
      case isTrue member =>
        refine ⟨fun _ same => Option.some.inj same ▸ member, fun source inside target link => ?_⟩
        rcases closed source inside target link with old | isNode
        · exact old
        · exact Option.some.inj isNode ▸ member
      case isFalse fresh =>
        have nodeMarked : node ∈ mark next fuel (next node) (Insert.insert node marked) :=
          subset_mark _ _ _ (Finset.mem_insert_self node marked)
        refine ⟨fun _ same => Option.some.inj same ▸ nodeMarked, ?_⟩
        cases ends : next node with
        | none =>
          have closedHere := closed.insert
          rw [ends] at closedHere
          intro source inside target link
          rw [mark_none] at inside ⊢
          simpa using closedHere source inside target link
        | some following =>
          have inCarrier : node ∈ carrier := hasLink node (by simp [ends])
          have fewer := unmarked_insert_lt inCarrier fresh
          have rest := @ih (next node) (Insert.insert node marked)
            closed.insert (by omega)
          rw [ends] at rest
          exact rest.2

end Mark

/-! ### Marking from a list of starting points -/

section MarkAll

variable [DecidableEq α] (next : α → Option α)

def markAll (fuel : Nat) (starts : List (Option α)) : Finset α :=
  starts.foldl (fun marked start => mark next fuel start marked) ∅

variable {next}

private theorem foldl_mark_closed {carrier : Finset α}
    (hasLink : ∀ node, next node ≠ none → node ∈ carrier) {fuel : Nat}
    (enough : carrier.card < fuel) (starts : List (Option α)) {marked : Finset α}
    (closed : Closed next marked) :
    let final := starts.foldl (fun marked start => mark next fuel start marked) marked
    Closed next final ∧ marked ⊆ final ∧ ∀ node, some node ∈ starts → node ∈ final := by
  induction starts generalizing marked with
  | nil => exact ⟨closed, Finset.Subset.refl _, by simp⟩
  | cons start rest ih =>
    have fits : unmarked carrier marked < fuel :=
      lt_of_le_of_lt (Finset.card_le_card Finset.sdiff_subset) enough
    have upTo : ClosedUpTo next start marked :=
      fun node member target link => Or.inl (closed node member target link)
    obtain ⟨startMarked, closedNow⟩ := mark_closed hasLink upTo fits
    obtain ⟨closedEnd, grows, restMarked⟩ := ih closedNow
    refine ⟨closedEnd, (subset_mark _ _ _).trans grows, fun node member => ?_⟩
    rcases List.mem_cons.mp member with isStart | inRest
    · exact grows (startMarked node isStart.symm)
    · exact restMarked node inRest

private theorem reaches_of_mem_foldl_mark {fuel : Nat} (starts : List (Option α))
    {marked : Finset α} {target : α}
    (member : target ∈ starts.foldl (fun marked start => mark next fuel start marked) marked) :
    target ∈ marked ∨ ∃ node, some node ∈ starts ∧ ReflTransGen (Link next) node target := by
  induction starts generalizing marked with
  | nil => exact Or.inl member
  | cons start rest ih =>
    rcases ih member with now | ⟨node, inRest, path⟩
    · rcases reaches_of_mem_mark now with old | ⟨node, isStart, path⟩
      · exact Or.inl old
      · exact Or.inr ⟨node, by simp [isStart], path⟩
    · exact Or.inr ⟨node, List.mem_cons_of_mem start inRest, path⟩

/-- **What the loop marks.** Given fuel for every node that has a link, the
marked nodes are exactly those reachable from a starting point. The early stop
at a marked node loses nothing: that node's own path is already marked. -/
theorem mem_markAll_iff {carrier : Finset α}
    (hasLink : ∀ node, next node ≠ none → node ∈ carrier) {fuel : Nat}
    (enough : carrier.card < fuel) (starts : List (Option α)) (target : α) :
    target ∈ markAll next fuel starts ↔
      ∃ node, some node ∈ starts ∧ ReflTransGen (Link next) node target := by
  constructor
  · intro member
    rcases reaches_of_mem_foldl_mark starts member with old | found
    · simp at old
    · exact found
  · rintro ⟨node, isStart, path⟩
    have nothing : Closed next (∅ : Finset α) := by simp [Closed]
    obtain ⟨closed, _, started⟩ := foldl_mark_closed hasLink enough starts nothing
    exact closed.mem_of_reaches (started node isStart) path

end MarkAll

end DbBackup.Lib.LinkGraph
