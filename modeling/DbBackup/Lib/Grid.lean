import Mathlib.Data.Int.ModEq
import Mathlib.Data.Nat.Prime.Basic
import Mathlib.Order.Bounds.Basic
import Mathlib.Tactic.Ring

/-!
Owns grids of evenly spaced points on a line: the points `origin + k * step`
for all integers `k`, and the first of them after a given position.

Contract: `isLeast_nextPoint`; a grid is the same from any of its points
(`onGrid_congr`), and between two neighbours the next point does not change
(`nextPoint_of_between`). Evenly spaced points that repeat after a prime number
of steps are all points, or one in each period (`spaced_iff_of_prime`).
-/

namespace DbBackup.Lib.Grid

def OnGrid (origin step x : Int) : Prop := ∃ k : Int, x = origin + k * step

/-- The first point after `now`. -/
def nextPoint (origin step now : Int) : Int := now + (step - (now - origin) % step)

theorem onGrid_iff_dvd {origin step x : Int} : OnGrid origin step x ↔ step ∣ x - origin := by
  constructor
  · rintro ⟨k, rfl⟩
    exact ⟨k, by ring⟩
  · rintro ⟨k, difference⟩
    refine ⟨k, ?_⟩
    have shape : x = origin + step * k := by omega
    rw [shape, Int.mul_comm]

/-- A grid through a point of another grid with the same step is that grid. -/
theorem onGrid_congr {origin other step : Int} (through : OnGrid origin step other) (x : Int) :
    OnGrid other step x ↔ OnGrid origin step x := by
  rw [onGrid_iff_dvd] at through
  rw [onGrid_iff_dvd, onGrid_iff_dvd]
  have parts : x - origin = (x - other) + (other - origin) := by omega
  rw [parts]
  exact (Int.dvd_add_left through).symm

section Next

variable {step : Int} (positive : 0 < step) (origin now : Int)

include positive

theorem lt_nextPoint : now < nextPoint origin step now := by
  have below := Int.emod_lt_of_pos (now - origin) positive
  unfold nextPoint
  omega

theorem nextPoint_le : nextPoint origin step now ≤ now + step := by
  have above := Int.emod_nonneg (now - origin) (Int.ne_of_gt positive)
  unfold nextPoint
  omega

omit positive in
theorem onGrid_nextPoint : OnGrid origin step (nextPoint origin step now) := by
  refine ⟨(now - origin) / step + 1, ?_⟩
  have whole := Int.mul_ediv_add_emod (now - origin) step
  have spread : ((now - origin) / step + 1) * step = step * ((now - origin) / step) + step := by ring
  unfold nextPoint
  omega

omit positive in
/-- Two points of a grid are a whole step apart. -/
theorem add_step_le_of_lt {x y : Int} (first : OnGrid origin step x) (second : OnGrid origin step y)
    (later : x < y) : x + step ≤ y := by
  have apart : step ∣ y - x := by
    rw [onGrid_iff_dvd] at first second
    have parts : y - x = (y - origin) - (x - origin) := by omega
    rw [parts]
    exact Int.dvd_sub second first
  have atLeast := Int.le_of_dvd (by omega) apart
  omega

theorem isLeast_nextPoint :
    IsLeast {x | now < x ∧ OnGrid origin step x} (nextPoint origin step now) := by
  refine ⟨⟨lt_nextPoint positive origin now, onGrid_nextPoint origin now⟩, ?_⟩
  rintro x ⟨later, onGrid⟩
  by_contra sooner
  have apart := add_step_le_of_lt origin onGrid (onGrid_nextPoint origin now) (by omega)
  have bound := nextPoint_le positive origin now
  omega

/-- From a point up to its successor the next point is that successor. -/
theorem nextPoint_of_between {x : Int} (onGrid : OnGrid origin step x) (low : x ≤ now)
    (high : now < x + step) : nextPoint origin step now = x + step := by
  have least := isLeast_nextPoint positive origin now
  have isPoint : OnGrid origin step (x + step) := by
    obtain ⟨k, rfl⟩ := onGrid
    exact ⟨k + 1, by ring⟩
  apply le_antisymm
  · exact least.2 ⟨high, isPoint⟩
  · have later := least.1.1
    exact add_step_le_of_lt origin onGrid least.1.2 (by omega)

end Next

/-! ### Even spacing -/

/-- Any two neighbours are `gap` apart. -/
def Spaced (p : Int → Prop) (gap : Int) : Prop :=
  ∀ x y, p x → p y → x < y → (∀ z, x < z → z < y → ¬ p z) → y = x + gap

section Spacing

variable {p : Int → Prop} {gap x y : Int}

/-- The next point after `x` is a gap away. -/
theorem Spaced.next (spaced : Spaced p gap) (first : p x) (second : p y) (later : x < y) :
    0 < gap ∧ x + gap ≤ y ∧ p (x + gap) := by
  classical
  have counted {z : Int} (after : x < z) (isPoint : p z) :
      0 < (z - x).toNat ∧ p (x + (z - x).toNat) := by
    refine ⟨by omega, ?_⟩
    rwa [Int.toNat_of_nonneg (by omega), add_sub_cancel]
  have exists_later : ∃ k : Nat, 0 < k ∧ p (x + k) := ⟨(y - x).toNat, counted later second⟩
  obtain ⟨positive, isPoint⟩ := Nat.find_spec exists_later
  have neighbours : ∀ z, x < z → z < x + (Nat.find exists_later : Int) → ¬ p z := by
    intro z after before isBetween
    have earlier : (z - x).toNat < Nat.find exists_later := by omega
    exact Nat.find_min exists_later earlier (counted after isBetween)
  have isGap := spaced x _ first isPoint (by omega) neighbours
  have least : Nat.find exists_later ≤ (y - x).toNat :=
    Nat.find_min' exists_later (counted later second)
  have same : (Nat.find exists_later : Int) = gap := by omega
  rw [same] at isPoint
  exact ⟨by omega, by omega, isPoint⟩

theorem spaced_scaled {unit : Int} (positive : 0 < unit) (base : Int) :
    Spaced (fun t => ∃ k, p k ∧ t = base + k * unit) (gap * unit) ↔ Spaced p gap := by
  have order {a b : Int} : base + a * unit < base + b * unit ↔ a < b := by
    rw [Int.add_lt_add_iff_left]
    exact Int.mul_lt_mul_right positive
  constructor
  · intro spaced a b first second later between
    have apart := spaced _ _ ⟨a, first, rfl⟩ ⟨b, second, rfl⟩ (order.mpr later) (by
      rintro _ after before ⟨k, isPoint, rfl⟩
      exact between k (order.mp after) (order.mp before) isPoint)
    have factored : (b - a - gap) * unit = 0 := by
      rw [Int.sub_mul, Int.sub_mul]
      omega
    have isGap : b - a - gap = 0 :=
      (Int.mul_eq_zero.mp factored).resolve_right (Int.ne_of_gt positive)
    omega
  · rintro spaced _ _ ⟨a, first, rfl⟩ ⟨b, second, rfl⟩ later between
    have apart := spaced a b first second (order.mp later) (by
      intro k after before isPoint
      exact between _ (order.mpr after) (order.mpr before) ⟨k, isPoint, rfl⟩)
    rw [apart, Int.add_mul, Int.add_assoc]

variable {period : Nat}

theorem periodic_mul (periodic : ∀ x, p (x + period) ↔ p x) (x k : Int) :
    p (x + k * period) ↔ p x := by
  induction k using Int.induction_on with
  | zero => simp
  | succ k ih =>
    rw [← ih, ← periodic (x + k * period)]
    have shape : x + (k + 1) * (period : Int) = x + k * period + period := by ring
    rw [shape]
  | pred k ih =>
    rw [← ih, ← periodic (x + (-k - 1) * period)]
    have shape : x + (-(k : Int) - 1) * (period : Int) + period = x + -k * period := by ring
    rw [shape]

/-- From any point, all multiples of the gap are points. -/
theorem Spaced.multiples (spaced : Spaced p gap) (unbounded : ∀ x, p x → ∃ y, x < y ∧ p y)
    (first : p x) (k : Nat) : p (x + k * gap) := by
  induction k with
  | zero => simpa using first
  | succ k ih =>
    obtain ⟨y, later, isPoint⟩ := unbounded _ ih
    have shape : x + ((k + 1 : Nat) : Int) * gap = x + k * gap + gap := by
      push_cast
      ring
    rw [shape]
    exact (spaced.next ih isPoint later).2.2

theorem spaced_iff_of_prime (prime : period.Prime) (periodic : ∀ x, p (x + period) ↔ p x)
    (some : ∃ x, p x) :
    Spaced p gap ↔ (gap = 1 ∧ ∀ x, p x) ∨ (gap = period ∧ ∀ x y, p x → p y → (period : Int) ∣ y - x) := by
  have positive : 0 < (period : Int) := by exact_mod_cast prime.pos
  have unbounded : ∀ x, p x → ∃ y, x < y ∧ p y :=
    fun x isPoint => ⟨x + period, by omega, (periodic x).mpr isPoint⟩
  constructor
  · intro spaced
    obtain ⟨x, first⟩ := some
    obtain ⟨gapPositive, -, -⟩ := spaced.next first ((periodic x).mpr first) (by omega)
    -- the multiples of the gap meet the end of the period
    have divides : gap ∣ period := by
      apply Int.dvd_of_emod_eq_zero
      by_contra rest
      have low := Int.emod_nonneg (period : Int) (Int.ne_of_gt gapPositive)
      have high := Int.emod_lt_of_pos (period : Int) gapPositive
      have whole := Int.mul_ediv_add_emod (period : Int) gap
      have notNegative : 0 ≤ (period : Int) / gap := Int.ediv_nonneg (by omega) (by omega)
      have isPoint := spaced.multiples unbounded first ((period : Int) / gap).toNat
      rw [Int.toNat_of_nonneg notNegative, Int.mul_comm] at isPoint
      have apart := (spaced.next isPoint ((periodic x).mpr first) (by omega)).2.1
      omega
    have oneOrAll : gap = 1 ∨ gap = period := by
      have natural : gap.natAbs ∣ period := by
        rw [← Int.natCast_dvd_natCast, Int.natAbs_of_nonneg (by omega)]
        exact divides
      rcases (Nat.dvd_prime prime).mp natural with one | all
      · exact .inl (by omega)
      · exact .inr (by omega)
    rcases oneOrAll with rfl | isPeriod
    · refine .inl ⟨rfl, fun y => ?_⟩
      have ahead : x ≤ y + (x - y).natAbs * period := by
        have product : ((x - y).natAbs : Int) * 1 ≤ (x - y).natAbs * period :=
          Int.mul_le_mul_of_nonneg_left (by omega) (by omega)
        omega
      rw [← periodic_mul periodic y (x - y).natAbs]
      have isPoint := spaced.multiples unbounded first (y + (x - y).natAbs * period - x).toNat
      rwa [Int.toNat_of_nonneg (by omega), Int.mul_one, add_sub_cancel] at isPoint
    · refine .inr ⟨isPeriod, fun x y first second => ?_⟩
      apply Int.dvd_of_emod_eq_zero
      by_contra rest
      have low := Int.emod_nonneg (y - x) (Int.ne_of_gt positive)
      have high := Int.emod_lt_of_pos (y - x) positive
      have whole := Int.mul_ediv_add_emod (y - x) (period : Int)
      have isPoint : p (x + (y - x) % period) := by
        rw [← periodic_mul periodic _ ((y - x) / period)]
        have same : x + (y - x) % period + (y - x) / period * period = y := by
          rw [Int.mul_comm]
          omega
        rwa [same]
      have apart := (spaced.next first isPoint (by omega)).2.1
      omega
  · rintro (⟨rfl, all⟩ | ⟨rfl, oneClass⟩) x y first second later between
    · by_contra different
      exact between (x + 1) (by omega) (by omega) (all _)
    · have atLeast := Int.le_of_dvd (by omega) (oneClass x y first second)
      by_contra different
      exact between (x + period) (by omega) (by omega) ((periodic x).mpr first)

end Spacing

/-- Go's remainder, made non-negative by one more step. -/
theorem emod_of_tmod {step : Int} (positive : 0 < step) (x : Int) :
    (if x.tmod step < 0 then x.tmod step + step else x.tmod step) = x % step := by
  have low := Int.emod_nonneg x (Int.ne_of_gt positive)
  have high := Int.emod_lt_of_pos x positive
  rw [Int.tmod_eq_emod]
  have size : (step.natAbs : Int) = step := Int.natAbs_of_nonneg (Int.le_of_lt positive)
  by_cases exact : 0 ≤ x ∨ step ∣ x
  · rw [if_pos exact]
    split <;> omega
  · rw [if_neg exact, size]
    split <;> omega

end DbBackup.Lib.Grid
