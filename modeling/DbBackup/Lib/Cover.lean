import Mathlib.Order.Lattice
import Mathlib.Data.List.Chain

/-!
Owns half-open windows of a linear order and the rule by which consecutive
windows cover: a list in which each window starts no later than the one before
it ends contains every point between the first start and the last end.
-/

namespace DbBackup.Lib.Cover

structure Window (Point : Type*) where
  start : Point
  stop : Point
deriving DecidableEq

variable {Point : Type*} [LinearOrder Point]

def Window.Contains (window : Window Point) (point : Point) : Prop :=
  window.start ≤ point ∧ point < window.stop

/-- No point lies between the end of the first window and the start of the second. -/
def Meets (window next : Window Point) : Prop := next.start ≤ window.stop

variable {Item : Type*} {window : Item → Window Point}

/-- Items are looked up through their windows, so that the caller learns which
of them contains the point. -/
theorem contains_of_gapless {first : Item} {rest : List Item} {point : Point}
    (gapless : List.IsChain (fun item next => Meets (window item) (window next)) (first :: rest))
    (reached : (window first).start ≤ point)
    (before : point < (window ((first :: rest).getLast (by simp))).stop) :
    ∃ item ∈ first :: rest, (window item).Contains point := by
  induction rest generalizing first with
  | nil => exact ⟨first, by simp, reached, before⟩
  | cons next rest ih =>
    rw [List.isChain_cons_cons] at gapless
    by_cases inside : point < (window first).stop
    · exact ⟨first, by simp, reached, inside⟩
    · have nextReached : (window next).start ≤ point := le_trans gapless.1 (not_lt.mp inside)
      have nextBefore : point < (window ((next :: rest).getLast (by simp))).stop := by
        simpa using before
      obtain ⟨item, member, contains⟩ :=
        ih gapless.2 nextReached nextBefore
      exact ⟨item, List.mem_cons_of_mem first member, contains⟩

end DbBackup.Lib.Cover
