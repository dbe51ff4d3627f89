import Mathlib.Algebra.Ring.Int.Defs
import Mathlib.Algebra.Ring.Nat
import Mathlib.Data.Int.Order.Basic

/-!
Owns 64-bit integers as Go computes with them: overflow wraps, the difference
of two instants saturates.
-/

namespace DbBackup.Lib.Duration

def maxDuration : Int := 2 ^ 63 - 1

def minDuration : Int := -2 ^ 63

/-- A 64-bit value after overflow. -/
def wrap64 (value : Int) : Int := (value + 2 ^ 63) % 2 ^ 64 - 2 ^ 63

/-- `now.Sub(t)`, which saturates. -/
def sub (now t : Int) : Int := max minDuration (min maxDuration (now - t))

theorem wrap64_eq_self {value : Int} (low : minDuration ≤ value) (high : value ≤ maxDuration) :
    wrap64 value = value := by
  unfold minDuration at low
  unfold maxDuration at high
  unfold wrap64
  omega

theorem le_sub_iff {d now t : Int} (positive : 0 < d) (bounded : d ≤ maxDuration) :
    d ≤ sub now t ↔ d ≤ now - t := by
  unfold sub minDuration
  omega

theorem sub_pos_iff {now t : Int} : 0 < sub now t ↔ t < now := by
  unfold sub minDuration maxDuration
  omega

@[simp] theorem sub_self (now : Int) : sub now now = 0 := by
  unfold sub minDuration maxDuration
  omega

end DbBackup.Lib.Duration
