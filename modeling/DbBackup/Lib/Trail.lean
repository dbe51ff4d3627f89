import Mathlib.Data.List.Chain
import DbBackup.Lib.LinkGraph

/-!
Owns the bounded walk over a functional graph: the nodes met by following at
most `n` links from a start, and the description of that list that does not
mention the walk.
-/

namespace DbBackup.Lib.LinkGraph

variable {α : Type*} {next : α → Option α}

def trail (next : α → Option α) : Nat → α → List α
  | 0, start => [start]
  | n + 1, start =>
    match next start with
    | none => [start]
    | some target => start :: trail next n target

/-- A list of linked nodes that stops where the links stop, or after `n` of
them. -/
structure IsTrail (next : α → Option α) (n : Nat) (start : α) (nodes : List α) : Prop where
  starts : nodes.head? = some start
  linked : nodes.IsChain (Link next)
  short : nodes.length ≤ n + 1
  ends : nodes.length = n + 1 ∨ ∃ last, nodes.getLast? = some last ∧ next last = none

theorem trail_eq_cons (next : α → Option α) (n : Nat) (start : α) :
    ∃ rest, trail next n start = start :: rest := by
  cases n with
  | zero => exact ⟨[], rfl⟩
  | succ n =>
    unfold trail
    cases next start with
    | none => exact ⟨[], rfl⟩
    | some target => exact ⟨_, rfl⟩

theorem isTrail_trail (next : α → Option α) (n : Nat) (start : α) :
    IsTrail next n start (trail next n start) := by
  induction n generalizing start with
  | zero => exact ⟨rfl, .singleton _, Nat.le_refl _, .inl rfl⟩
  | succ n ih =>
    unfold trail
    cases link : next start with
    | none =>
      exact ⟨rfl, .singleton _, by simp, .inr ⟨start, rfl, link⟩⟩
    | some target =>
      obtain ⟨rest, shape⟩ := trail_eq_cons next n target
      have tail := ih target
      rw [shape] at tail
      simp only [shape]
      refine ⟨rfl, List.isChain_cons_cons.mpr ⟨link, tail.linked⟩, ?_, ?_⟩
      · simpa using tail.short
      · rcases tail.ends with long | ⟨last, isLast, noLink⟩
        · left
          simpa using long
        · exact .inr ⟨last, by simpa using isLast, noLink⟩

/-- There is only one trail. -/
theorem IsTrail.eq_trail {n : Nat} {start : α} {nodes : List α}
    (isTrail : IsTrail next n start nodes) : nodes = trail next n start := by
  induction n generalizing start nodes with
  | zero =>
    obtain ⟨starts, _, short, _⟩ := isTrail
    match nodes, starts, short with
    | [only], starts, _ =>
      rw [Option.some.inj starts]
      rfl
  | succ n ih =>
    match nodes, isTrail with
    | [only], ⟨starts, _, _, ends⟩ =>
      obtain rfl := Option.some.inj starts
      rcases ends with long | ⟨last, isLast, noLink⟩
      · simp at long
      · have isFirst : only = last := Option.some.inj isLast
        rw [← isFirst] at noLink
        simp [trail, noLink]
    | first :: second :: rest, ⟨starts, linked, short, ends⟩ =>
      obtain rfl := Option.some.inj starts
      obtain ⟨link, tailLinked⟩ := List.isChain_cons_cons.mp linked
      have tail : IsTrail next n second (second :: rest) := by
        refine ⟨rfl, tailLinked, by simpa using short, ?_⟩
        rcases ends with long | ⟨last, isLast, noLink⟩
        · left
          simpa using long
        · exact .inr ⟨last, by simpa using isLast, noLink⟩
      have followed : next first = some second := link
      simp only [trail, followed]
      rw [← ih tail]

end DbBackup.Lib.LinkGraph
