import DbBackup.Lib.Grid
import DbBackup.Scheduler.Cron
import Mathlib.Data.Int.Interval
import Mathlib.Data.Set.Card

/-!
Owns intervals with anchors: the grid points `nextAnchoredDuration` waits for,
the ones `missedGridPoints` counts, and what becomes of the interval when it is
applied again and again (`internal/scheduler/cron.go`).

On a clock that is never shifted the wait leads to the nearest point of the
grids through the anchors on the day it is computed (`nextAnchoredDuration_nearest`).
The grid starts anew every day, so an interval is kept exactly if it divides
the day (`keepsPeriod_iff`).
-/

set_option linter.all false

namespace DbBackup.Scheduler

open Lib.Duration Lib.Grid Lib.Time Lib.Zone

/-! ### Missed points -/

structure Missed where
  count : Nat := 0
  samples : List Int := []
  /-- The seconds of the points that were counted. -/
  seen : List Int := []
deriving DecidableEq

def Missed.note (missed : Missed) (point : Int) : Missed :=
  if unixSecond point ∈ missed.seen then missed
  else
    { count := missed.count + 1
      samples := if missed.samples.length < 3 then missed.samples ++ [point] else missed.samples
      seen := unixSecond point :: missed.seen }

/-- The loop over the points of one grid; `none` if it takes more rounds. -/
def missedLoop (step finish : Int) : Nat → Int → Missed → Option Missed
  | 0, _, _ => none
  | rounds + 1, point, missed =>
    if point < finish then missedLoop step finish rounds (point + step) (missed.note point)
    else some missed

/-- The points of the grid through one anchor; `none` is a division by zero, or
a loop without end. -/
def missedOf (loc : Location) (step prev finish : Int) (missed : Missed) (anchor : Int) :
    Option Missed :=
  if step = 0 then none
  else
    let rem := (sub prev (loc.dateOn prev (anchor.tdiv 60) (anchor.tmod 60))).tmod step
    let rem := if rem < 0 then wrap64 (rem + step) else rem
    let first := prev + wrap64 (step - rem)
    missedLoop step finish (((finish - first) / step).toNat + 2) first missed

def missedGridPoints (loc : Location) (anchors : List Int) (intervalMin prev finish : Int) :
    Option (Nat × List Int) :=
  if anchors = [] ∨ intervalMin ≤ 0 ∨ finish ≤ prev then some (0, [])
  else
    (anchors.foldlM (missedOf loc (wrap64 (intervalMin * minute)) prev finish) {}).map fun missed =>
      (missed.count, missed.samples)

/-! ### Anchors on a clock that is never shifted -/

/-- The clock time `anchor` on the day of `now`. -/
def epoch (loc : Location) (now anchor : Int) : Int :=
  loc.dateOn now (anchor.tdiv 60) (anchor.tmod 60)

section Fixed

variable {offset now anchor step : Int}

theorem epoch_fixed (offset now anchor : Int) :
    epoch (fixedZone offset) now anchor =
      (((fixedZone offset).localDay now * 1440 + anchor) * 60 - offset) * second := by
  unfold epoch
  rw [Location.dateOn_eq, Int.add_assoc, tdiv_tmod_minutes]
  show ((fixedZone offset).localDay now * 86400 + anchor * 60 - offset) * second = _
  congr 1
  omega

/-- A clock time is less than a day away from any instant of its day. -/
theorem epoch_near (low : 0 ≤ anchor) (high : anchor < 1440) (now : Int) :
    -day < now - epoch (fixedZone offset) now anchor ∧
      now - epoch (fixedZone offset) now anchor < day := by
  rw [epoch_fixed]
  unfold Location.localDay Location.localSecond unixSecond
  show -day < now - (((now / second + offset) / 86400 * 1440 + anchor) * 60 - offset) * second ∧
    now - (((now / second + offset) / 86400 * 1440 + anchor) * 60 - offset) * second < day
  unfold day hour minute second
  omega

theorem sub_epoch (low : 0 ≤ anchor) (high : anchor < 1440) (now : Int) :
    sub now (epoch (fixedZone offset) now anchor) =
      now - epoch (fixedZone offset) now anchor := by
  have near := @epoch_near offset anchor low high now
  unfold day hour minute second at near
  unfold sub minDuration maxDuration
  omega

/-- What is left of the current step, without overflow. -/
theorem remainder_eq (positive : 0 < step) (bounded : step ≤ maxDuration) (x : Int) :
    (if x.tmod step < 0 then wrap64 (x.tmod step + step) else x.tmod step) = x % step ∧
      wrap64 (step - x % step) = step - x % step := by
  have low := Int.emod_nonneg x (Int.ne_of_gt positive)
  have high := Int.emod_lt_of_pos x positive
  have same := emod_of_tmod positive x
  have inRange : ∀ value, 0 ≤ value → value ≤ step → wrap64 value = value := by
    intro value above below
    apply wrap64_eq_self
    · unfold minDuration
      omega
    · omega
  refine ⟨?_, inRange _ (by omega) (by omega)⟩
  by_cases negative : x.tmod step < 0
  · rw [if_pos negative] at same ⊢
    rw [same, inRange _ low (by omega)]
  · rw [if_neg negative] at same ⊢
    exact same

theorem anchorWait_fixed (low : 0 ≤ anchor) (high : anchor < 1440) (positive : 0 < step)
    (bounded : step ≤ maxDuration) (now : Int) :
    anchorWait (fixedZone offset) step now anchor =
      some (nextPoint (epoch (fixedZone offset) now anchor) step now - now) := by
  obtain ⟨isRest, noOverflow⟩ :=
    remainder_eq positive bounded (now - epoch (fixedZone offset) now anchor)
  unfold anchorWait
  rw [if_neg (Int.ne_of_gt positive)]
  simp only
  have difference := @sub_epoch offset anchor low high now
  unfold epoch at difference isRest noOverflow ⊢
  rw [difference, isRest]
  unfold nextPoint
  by_cases onGrid : (now - (fixedZone offset).dateOn now (anchor.tdiv 60) (anchor.tmod 60)) % step = 0
  · rw [if_pos onGrid, onGrid]
    congr 1
    omega
  · rw [if_neg onGrid, noOverflow]
    congr 1
    omega

end Fixed

/-! ### The nearest point -/

/-- The points of the grids through all anchors on the day of `now`. -/
def gridPoints (loc : Location) (anchors : List Int) (step now : Int) : Set Int :=
  {x | ∃ anchor ∈ anchors, OnGrid (epoch loc now anchor) step x}

section Nearest

variable {offset now step : Int} {anchors : List Int}

/-- What the loop keeps: no point of the anchors so far is before the best one. -/
structure Nearest (points : Set Int) (step now best : Int) : Prop where
  ahead : 0 < best
  within : best ≤ step
  isPoint : now + best ∈ points
  least : ∀ x ∈ points, now < x → now + best ≤ x

theorem gridPoints_cons (loc : Location) (anchor : Int) (rest : List Int) (step now : Int) :
    gridPoints loc (anchor :: rest) step now =
      {x | OnGrid (epoch loc now anchor) step x} ∪ gridPoints loc rest step now := by
  ext x
  simp [gridPoints]

theorem nearest_nextPoint (positive : 0 < step) (origin now : Int) :
    Nearest {x | OnGrid origin step x} step now (nextPoint origin step now - now) := by
  have later := lt_nextPoint positive origin now
  have bound := nextPoint_le positive origin now
  have least := isLeast_nextPoint positive origin now
  have same : now + (nextPoint origin step now - now) = nextPoint origin step now := by omega
  refine ⟨by omega, by omega, ?_, ?_⟩
  · rw [same]
    exact least.1.2
  · intro x onGrid isLater
    rw [same]
    exact least.2 ⟨isLater, onGrid⟩

theorem Nearest.union {first second : Set Int} {d best : Int} (one : Nearest first step now best)
    (other : Nearest second step now d) :
    Nearest (first ∪ second) step now (if best = 0 ∨ d < best then d else best) := by
  have notZero := one.ahead
  by_cases closer : d < best
  · rw [if_pos (.inr closer)]
    refine ⟨other.ahead, other.within, .inr other.isPoint, ?_⟩
    rintro x (inFirst | inSecond) isLater
    · have apart := one.least x inFirst isLater
      omega
    · exact other.least x inSecond isLater
  · rw [if_neg (by omega)]
    refine ⟨one.ahead, one.within, .inl one.isPoint, ?_⟩
    rintro x (inFirst | inSecond) isLater
    · exact one.least x inFirst isLater
    · have apart := other.least x inSecond isLater
      omega

theorem bestWait_nearest (positive : 0 < step) (bounded : step ≤ maxDuration) {points : Set Int}
    {best : Int} (inDay : ∀ anchor ∈ anchors, 0 ≤ anchor ∧ anchor < 1440)
    (soFar : Nearest points step now best) :
    ∃ d, bestWait (fixedZone offset) step now anchors best = some d ∧
      Nearest (points ∪ gridPoints (fixedZone offset) anchors step now) step now d := by
  induction anchors generalizing points best with
  | nil =>
    refine ⟨best, rfl, ?_⟩
    have noPoints : gridPoints (fixedZone offset) [] step now = ∅ := by simp [gridPoints]
    rwa [noPoints, Set.union_empty]
  | cons anchor rest ih =>
    obtain ⟨low, high⟩ := inDay anchor List.mem_cons_self
    rw [bestWait_cons, anchorWait_fixed low high positive bounded, gridPoints_cons,
      ← Set.union_assoc]
    exact ih (List.forall_mem_cons.mp inDay).2
      (soFar.union (nearest_nextPoint positive _ now))

theorem bestWait_start (positive : 0 < step) (bounded : step ≤ maxDuration) (notEmpty : anchors ≠ [])
    (inDay : ∀ anchor ∈ anchors, 0 ≤ anchor ∧ anchor < 1440) :
    ∃ d, bestWait (fixedZone offset) step now anchors 0 = some d ∧
      Nearest (gridPoints (fixedZone offset) anchors step now) step now d := by
  cases anchors with
  | nil => exact absurd rfl notEmpty
  | cons anchor rest =>
    obtain ⟨low, high⟩ := inDay anchor List.mem_cons_self
    rw [bestWait_cons, anchorWait_fixed low high positive bounded, gridPoints_cons]
    exact bestWait_nearest positive bounded
      (List.forall_mem_cons.mp inDay).2
      (nearest_nextPoint positive _ now)

end Nearest

section Interval

variable {offset : Int} {anchors : List Int} {interval : Int} (positive : 1 ≤ interval)
  (fits : interval * minute ≤ maxDuration)

include positive fits

/-- The step of an interval that fits in a duration. -/
theorem step_eq : wrap64 (interval * minute) = interval * minute := by
  apply wrap64_eq_self _ fits
  unfold minDuration minute second
  omega

theorem nextAnchoredDuration_spec (notEmpty : anchors ≠ [])
    (inDay : ∀ anchor ∈ anchors, 0 ≤ anchor ∧ anchor < 1440) (now : Int) :
    ∃ d, nextAnchoredDuration (fixedZone offset) anchors interval now = some d ∧
      Nearest (gridPoints (fixedZone offset) anchors (interval * minute) now)
        (interval * minute) now d := by
  have ahead : 0 < interval * minute := by
    unfold minute second
    omega
  unfold nextAnchoredDuration
  rw [if_neg (by simp [notEmpty]; omega), step_eq positive fits]
  exact bestWait_start ahead fits notEmpty inDay

end Interval

/-! ### Counting missed points -/

/-- Every point is counted once. -/
def Missed.Tallied (missed : Missed) : Prop :=
  missed.count = missed.seen.length ∧ missed.seen.Nodup

theorem Missed.Tallied.note {missed : Missed} (tallied : missed.Tallied) (point : Int) :
    (missed.note point).Tallied := by
  unfold Missed.note
  split
  · exact tallied
  · rename_i new
    exact ⟨congrArg (· + 1) tallied.1, List.nodup_cons.mpr ⟨new, tallied.2⟩⟩

theorem Missed.mem_note {missed : Missed} {point sec : Int} :
    sec ∈ (missed.note point).seen ↔ sec ∈ missed.seen ∨ sec = unixSecond point := by
  unfold Missed.note
  split
  · rename_i old
    constructor
    · exact .inl
    · rintro (before | rfl)
      · exact before
      · exact old
  · rw [List.mem_cons, or_comm]

section Missed

variable {step finish : Int} (positive : 0 < step)

include positive

/-- The loop counts the points from `point` on, once each. -/
theorem missedLoop_spec {rounds : Nat} {point : Int} {missed : Missed}
    (enough : finish ≤ point + rounds * step) (tallied : missed.Tallied) :
    ∃ result, missedLoop step finish (rounds + 1) point missed = some result ∧ result.Tallied ∧
      ∀ sec, sec ∈ result.seen ↔ sec ∈ missed.seen ∨
        ∃ x, point ≤ x ∧ x < finish ∧ OnGrid point step x ∧ sec = unixSecond x := by
  have stopped (missed : Missed) {point : Int} (past : finish ≤ point) (sec : Int) :
      sec ∈ missed.seen ↔ sec ∈ missed.seen ∨
        ∃ x, point ≤ x ∧ x < finish ∧ OnGrid point step x ∧ sec = unixSecond x := by
    constructor
    · exact .inl
    · rintro (before | ⟨x, low, high, -⟩)
      · exact before
      · omega
  induction rounds generalizing point missed with
  | zero =>
    have past : finish ≤ point := by simpa using enough
    exact ⟨missed, if_neg (by omega), tallied, stopped missed past⟩
  | succ rounds ih =>
    rw [missedLoop]
    by_cases ahead : point < finish
    · rw [if_pos ahead]
      have later : finish ≤ point + step + rounds * step := by
        have spread : ((rounds + 1 : Nat) : Int) * step = step + rounds * step := by
          push_cast
          ring
        omega
      obtain ⟨result, isResult, isTallied, members⟩ :=
        ih later (tallied.note point)
      refine ⟨result, isResult, isTallied, fun sec => ?_⟩
      rw [members, Missed.mem_note, or_assoc]
      refine or_congr_right ?_
      have onNext : ∀ x, OnGrid (point + step) step x ↔ OnGrid point step x :=
        onGrid_congr ⟨1, by ring⟩
      constructor
      · rintro (rfl | ⟨x, low, high, onGrid, isSecond⟩)
        · exact ⟨point, le_refl _, ahead, ⟨0, by ring⟩, rfl⟩
        · exact ⟨x, by omega, high, (onNext x).mp onGrid, isSecond⟩
      · rintro ⟨x, low, high, onGrid, isSecond⟩
        by_cases first : x = point
        · rw [first] at isSecond
          exact .inl isSecond
        · have apart : point + step ≤ x :=
            add_step_le_of_lt point ⟨0, by ring⟩ onGrid (by omega)
          exact .inr ⟨x, apart, high, (onNext x).mpr onGrid, isSecond⟩
    · rw [if_neg ahead]
      exact ⟨missed, rfl, tallied, stopped missed (by omega)⟩

theorem missedOf_spec {offset prev anchor : Int} {missed : Missed} (bounded : step ≤ maxDuration)
    (low : 0 ≤ anchor) (high : anchor < 1440) (tallied : missed.Tallied) :
    ∃ result, missedOf (fixedZone offset) step prev finish missed anchor = some result ∧
      result.Tallied ∧
      ∀ sec, sec ∈ result.seen ↔ sec ∈ missed.seen ∨
        ∃ x, prev < x ∧ x < finish ∧ OnGrid (epoch (fixedZone offset) prev anchor) step x ∧
          sec = unixSecond x := by
  obtain ⟨isRest, noOverflow⟩ :=
    remainder_eq positive bounded (prev - epoch (fixedZone offset) prev anchor)
  have first : missedOf (fixedZone offset) step prev finish missed anchor =
      missedLoop step finish
        (((finish - nextPoint (epoch (fixedZone offset) prev anchor) step prev) / step).toNat + 2)
        (nextPoint (epoch (fixedZone offset) prev anchor) step prev) missed := by
    have difference := @sub_epoch offset anchor low high prev
    unfold epoch at difference isRest noOverflow ⊢
    unfold missedOf
    rw [if_neg (Int.ne_of_gt positive)]
    simp only [difference, isRest, noOverflow]
    rfl
  rw [first]
  generalize isOrigin : epoch (fixedZone offset) prev anchor = origin
  have least := isLeast_nextPoint positive origin prev
  have enough : finish ≤ nextPoint origin step prev +
      (((finish - nextPoint origin step prev) / step).toNat + 1 : Nat) * step := by
    have room := Int.lt_mul_ediv_self_add positive
      (x := finish - nextPoint origin step prev)
    have rounds : (finish - nextPoint origin step prev) / step ≤
        (((finish - nextPoint origin step prev) / step).toNat : Int) := Int.self_le_toNat _
    have scaled := Int.mul_le_mul_of_nonneg_right rounds (Int.le_of_lt positive)
    have spread : ((((finish - nextPoint origin step prev) / step).toNat + 1 : Nat) : Int) * step =
        ((finish - nextPoint origin step prev) / step).toNat * step + step := by
      push_cast
      ring
    rw [Int.mul_comm] at room
    omega
  obtain ⟨result, isResult, isTallied, members⟩ := missedLoop_spec positive enough tallied
  refine ⟨result, isResult, isTallied, fun sec => ?_⟩
  rw [members]
  refine or_congr_right (exists_congr fun x => ?_)
  rw [onGrid_congr least.1.2]
  constructor
  · rintro ⟨notBefore, before, onGrid, isSecond⟩
    exact ⟨lt_of_lt_of_le least.1.1 notBefore, before, onGrid, isSecond⟩
  · rintro ⟨later, before, onGrid, isSecond⟩
    exact ⟨least.2 ⟨later, onGrid⟩, before, onGrid, isSecond⟩

theorem foldlM_missedOf_spec {offset prev : Int} {anchors : List Int} {missed : Missed}
    (bounded : step ≤ maxDuration) (inDay : ∀ anchor ∈ anchors, 0 ≤ anchor ∧ anchor < 1440)
    (tallied : missed.Tallied) :
    ∃ result, anchors.foldlM (missedOf (fixedZone offset) step prev finish) missed = some result ∧
      result.Tallied ∧
      ∀ sec, sec ∈ result.seen ↔ sec ∈ missed.seen ∨
        ∃ x ∈ gridPoints (fixedZone offset) anchors step prev,
          prev < x ∧ x < finish ∧ sec = unixSecond x := by
  induction anchors generalizing missed with
  | nil => exact ⟨missed, rfl, tallied, by simp [gridPoints]⟩
  | cons anchor rest ih =>
    obtain ⟨low, high⟩ := inDay anchor List.mem_cons_self
    obtain ⟨next, isNext, nextTallied, nextMembers⟩ :=
      @missedOf_spec step finish positive offset prev anchor missed bounded low high tallied
    obtain ⟨result, isResult, isTallied, members⟩ := ih
      (List.forall_mem_cons.mp inDay).2 nextTallied
    refine ⟨result, ?_, isTallied, fun sec => ?_⟩
    · rw [List.foldlM_cons, isNext]
      exact isResult
    · rw [members, nextMembers, or_assoc, gridPoints_cons]
      refine or_congr_right ?_
      constructor
      · rintro (⟨x, later, before, onGrid, isSecond⟩ | ⟨x, isPoint, later, before, isSecond⟩)
        · exact ⟨x, .inl onGrid, later, before, isSecond⟩
        · exact ⟨x, .inr isPoint, later, before, isSecond⟩
      · rintro ⟨x, onGrid | isPoint, later, before, isSecond⟩
        · exact .inl ⟨x, later, before, onGrid, isSecond⟩
        · exact .inr ⟨x, isPoint, later, before, isSecond⟩

end Missed

/-- The points of a grid of whole minutes are whole seconds. -/
theorem second_dvd_of_gridPoints {offset interval prev x : Int} {anchors : List Int}
    (isPoint : x ∈ gridPoints (fixedZone offset) anchors (interval * minute) prev) : second ∣ x := by
  obtain ⟨anchor, -, k, rfl⟩ := isPoint
  rw [epoch_fixed]
  refine Int.dvd_add (Int.dvd_mul_left ..) ⟨k * interval * 60, ?_⟩
  unfold minute
  ring

theorem missedGridPoints_spec {offset interval prev finish : Int} {anchors : List Int}
    (positive : 1 ≤ interval) (fits : interval * minute ≤ maxDuration) (notEmpty : anchors ≠ [])
    (inDay : ∀ anchor ∈ anchors, 0 ≤ anchor ∧ anchor < 1440) (later : prev < finish) :
    ∃ samples, missedGridPoints (fixedZone offset) anchors interval prev finish =
      some (({x | x ∈ gridPoints (fixedZone offset) anchors (interval * minute) prev ∧
        prev < x ∧ x < finish} : Set Int).ncard, samples) := by
  have ahead : 0 < interval * minute := by
    unfold minute second
    omega
  obtain ⟨result, isResult, ⟨isCount, noDuplicates⟩, members⟩ :=
    @foldlM_missedOf_spec (interval * minute) finish ahead offset prev anchors {} fits inDay
      ⟨rfl, List.nodup_nil⟩
  refine ⟨result.samples, ?_⟩
  unfold missedGridPoints
  rw [if_neg (by simp [notEmpty]; omega), step_eq positive fits, isResult]
  show some (result.count, result.samples) = _
  have sameSecond : Set.InjOn unixSecond
      {x | x ∈ gridPoints (fixedZone offset) anchors (interval * minute) prev ∧
        prev < x ∧ x < finish} := by
    rintro x ⟨onGrid, -⟩ y ⟨alsoOnGrid, -⟩ same
    obtain ⟨first, rfl⟩ := second_dvd_of_gridPoints onGrid
    obtain ⟨other, rfl⟩ := second_dvd_of_gridPoints alsoOnGrid
    unfold unixSecond second at same
    unfold second
    omega
  have seconds : unixSecond '' {x | x ∈ gridPoints (fixedZone offset) anchors (interval * minute)
      prev ∧ prev < x ∧ x < finish} = (result.seen.toFinset : Set Int) := by
    ext sec
    rw [List.coe_toFinset, Set.mem_ofPred_eq, members]
    constructor
    · rintro ⟨x, ⟨isPoint, low, high⟩, rfl⟩
      exact .inr ⟨x, isPoint, low, high, rfl⟩
    · rintro (old | ⟨x, isPoint, low, high, rfl⟩)
      · cases old
      · exact ⟨x, ⟨isPoint, low, high⟩, rfl⟩
  rw [← sameSecond.ncard_image, seconds, Set.ncard_coe_finset,
    List.toFinset_card_of_nodup noDuplicates, isCount]

/-- The wait leads to the nearest point of all grids, and the missed points are
counted once each. -/
theorem nextAnchoredDuration_nearest {offset interval : Int} {anchors : List Int}
    (positive : 1 ≤ interval) (fits : interval * minute ≤ maxDuration) (notEmpty : anchors ≠ [])
    (inDay : ∀ anchor ∈ anchors, 0 ≤ anchor ∧ anchor < 1440) :
    (∀ now, ∃ d, nextAnchoredDuration (fixedZone offset) anchors interval now = some d ∧
      0 < d ∧ d ≤ interval * minute ∧
      (∃ anchor ∈ anchors, ∃ k : Int,
        now + d = epoch (fixedZone offset) now anchor + k * (interval * minute)) ∧
      ∀ anchor ∈ anchors, ∀ k : Int,
        ¬ (now < epoch (fixedZone offset) now anchor + k * (interval * minute) ∧
          epoch (fixedZone offset) now anchor + k * (interval * minute) < now + d)) ∧
    ∀ prev finish, prev < finish →
      ({x | (∃ anchor ∈ anchors, ∃ k : Int,
        x = epoch (fixedZone offset) prev anchor + k * (interval * minute)) ∧
          prev < x ∧ x < finish} : Set Int).Finite ∧
      ∃ samples, missedGridPoints (fixedZone offset) anchors interval prev finish =
        some (({x | (∃ anchor ∈ anchors, ∃ k : Int,
          x = epoch (fixedZone offset) prev anchor + k * (interval * minute)) ∧
            prev < x ∧ x < finish} : Set Int).ncard, samples) := by
  refine ⟨fun now => ?_, fun prev finish later => ⟨?_, ?_⟩⟩
  · obtain ⟨d, isWait, nearest⟩ :=
      @nextAnchoredDuration_spec offset anchors interval positive fits notEmpty inDay now
    refine ⟨d, isWait, nearest.ahead, nearest.within, nearest.isPoint, ?_⟩
    rintro anchor member k ⟨isLater, sooner⟩
    have apart := nearest.least _ ⟨anchor, member, k, rfl⟩ isLater
    omega
  · exact (Set.finite_Ioo prev finish).subset fun x inside => inside.2
  · exact missedGridPoints_spec positive fits notEmpty inDay later

/-- Two anchors, forty minutes apart on an hourly grid. -/
theorem nextAnchoredDuration_nearest_two :
    ∃ d, nextAnchoredDuration (fixedZone 0) [180, 220] 60 0 = some d ∧ 0 < d ∧ d ≤ 60 * minute := by
  obtain ⟨d, isWait, ahead, within, -⟩ := (@nextAnchoredDuration_nearest 0 60 [180, 220] (by decide)
    (by decide) (by decide) (by decide)).1 0
  exact ⟨d, isWait, ahead, within⟩

example : nextAnchoredDuration (fixedZone 0) [180, 220] 60 (10 * minute) = some (30 * minute) := by
  decide

/-! ### The interval, applied again and again -/

/-- The instant the wait computed at `now` leads to. -/
def nextRun (loc : Location) (anchor interval now : Int) : Option Int :=
  (nextAnchoredDuration loc [anchor] interval now).map (now + ·)

def anchoredRuns (loc : Location) (anchor interval start : Int) : Nat → Option Int
  | 0 => some start
  | k + 1 => (anchoredRuns loc anchor interval start k).bind (nextRun loc anchor interval)

/-- The runs are one interval apart, and a wait computed between two runs leads to
the second one. -/
def KeepsPeriod (loc : Location) (anchor interval start : Int) : Prop :=
  ∀ k : Nat,
    anchoredRuns loc anchor interval start k = some (start + k * (interval * minute)) ∧
    ∀ now, start + k * (interval * minute) ≤ now → now < start + (k + 1) * (interval * minute) →
      nextRun loc anchor interval now = some (start + (k + 1) * (interval * minute))

section Period

variable {offset anchor interval : Int} (low : 0 ≤ anchor) (high : anchor < 1440)
  (positive : 1 ≤ interval) (fits : interval * minute ≤ maxDuration)

include low high positive fits

theorem nextRun_eq (now : Int) :
    nextRun (fixedZone offset) anchor interval now =
      some (nextPoint (epoch (fixedZone offset) now anchor) (interval * minute) now) := by
  have ahead : 0 < interval * minute := by
    unfold minute second
    omega
  unfold nextRun nextAnchoredDuration
  rw [if_neg (by simp; omega), step_eq positive fits, List.foldlM_cons,
    anchorWait_fixed low high ahead fits]
  simp

omit low high positive fits in
/-- The epochs of two days are whole days apart. -/
theorem epoch_onGrid (divides : interval ∣ 1440) (now other : Int) :
    OnGrid (epoch (fixedZone offset) now anchor) (interval * minute)
      (epoch (fixedZone offset) other anchor) := by
  obtain ⟨parts, isDay⟩ := divides
  rw [onGrid_iff_dvd, epoch_fixed, epoch_fixed]
  refine ⟨parts * ((fixedZone offset).localDay other - (fixedZone offset).localDay now), ?_⟩
  calc _ = 1440 * ((fixedZone offset).localDay other - (fixedZone offset).localDay now) * minute := by
        unfold minute
        ring
    _ = _ := by
        rw [isDay]
        ring

theorem keepsPeriod_of_dvd (divides : interval ∣ 1440) {start : Int}
    (onGrid : OnGrid (epoch (fixedZone offset) start anchor) (interval * minute) start) :
    KeepsPeriod (fixedZone offset) anchor interval start := by
  have ahead : 0 < interval * minute := by
    unfold minute second
    omega
  have next (k : Nat) (now : Int) (notBefore : start + k * (interval * minute) ≤ now)
      (before : now < start + (k + 1) * (interval * minute)) :
      nextRun (fixedZone offset) anchor interval now =
        some (start + (k + 1) * (interval * minute)) := by
    have spread : start + (k + 1) * (interval * minute) =
        start + k * (interval * minute) + interval * minute := by ring
    rw [nextRun_eq low high positive fits, spread]
    rw [spread] at before
    congr 1
    apply nextPoint_of_between ahead _ _ _ notBefore before
    rw [onGrid_congr (epoch_onGrid divides start now)]
    obtain ⟨j, isStart⟩ := onGrid
    refine ⟨j + k, ?_⟩
    calc start + k * (interval * minute)
        = epoch (fixedZone offset) start anchor + j * (interval * minute) +
            k * (interval * minute) := by rw [← isStart]
      _ = _ := by ring
  intro k
  refine ⟨?_, next k⟩
  induction k with
  | zero => simp [anchoredRuns]
  | succ k ih =>
    rw [anchoredRuns, ih]
    push_cast
    have spread : start + (k + 1) * (interval * minute) =
        start + k * (interval * minute) + interval * minute := by ring
    exact next k _ (le_refl _) (by omega)

/-- The wait computed at the anchor's time on the next day leads a whole interval
further, so that time is itself a run. -/
theorem dvd_of_keepsPeriod {start : Int}
    (onGrid : OnGrid (epoch (fixedZone offset) start anchor) (interval * minute) start)
    (keeps : KeepsPeriod (fixedZone offset) anchor interval start) : interval ∣ 1440 := by
  have ahead : 0 < interval * minute := by
    unfold minute second
    omega
  have inDay := @epoch_near offset anchor low high start
  generalize isTomorrow : epoch (fixedZone offset) start anchor + day = tomorrow
  have sameClock : epoch (fixedZone offset) tomorrow anchor = tomorrow := by
    rw [← isTomorrow, epoch_fixed, epoch_fixed]
    generalize (fixedZone offset).localDay start = date
    show ((((((date * 1440 + anchor) * 60 - offset) * second + day) / second + offset) / 86400 *
      1440 + anchor) * 60 - offset) * second = _
    unfold day hour minute second
    omega
  obtain ⟨k, notBefore, before⟩ : ∃ k : Nat, start + k * (interval * minute) ≤ tomorrow ∧
      tomorrow < start + (k + 1) * (interval * minute) := by
    have floor := Int.mul_ediv_add_emod (tomorrow - start) (interval * minute)
    have restLow := Int.emod_nonneg (tomorrow - start) (Int.ne_of_gt ahead)
    have restHigh := Int.emod_lt_of_pos (tomorrow - start) ahead
    have isNat : 0 ≤ (tomorrow - start) / (interval * minute) :=
      Int.ediv_nonneg (by omega) (Int.le_of_lt ahead)
    refine ⟨((tomorrow - start) / (interval * minute)).toNat, ?_, ?_⟩
    · rw [Int.toNat_of_nonneg isNat, Int.mul_comm]
      omega
    · rw [Int.toNat_of_nonneg isNat, Int.add_mul, Int.one_mul, Int.mul_comm]
      omega
  have target := (keeps k).2 tomorrow notBefore before
  rw [nextRun_eq low high positive fits, sameClock,
    nextPoint_of_between ahead _ _ ⟨0, by ring⟩ (le_refl tomorrow) (by omega)] at target
  have isRun : tomorrow = start + k * (interval * minute) := by
    have same := Option.some.inj target
    have spread : start + (k + 1) * (interval * minute) =
        start + k * (interval * minute) + interval * minute := by ring
    omega
  obtain ⟨j, isStart⟩ := onGrid
  have wholeDay : 1440 * minute = (j + k) * interval * minute := by
    have shape : day = j * (interval * minute) + k * (interval * minute) := by omega
    calc 1440 * minute = day := by rfl
      _ = _ := by
        rw [shape]
        ring
  have cancelled : 1440 = (j + k) * interval :=
    Int.eq_of_mul_eq_mul_right (by decide : minute ≠ 0) wholeDay
  exact ⟨j + k, by rw [cancelled, Int.mul_comm]⟩

end Period

/-- An interval is kept exactly if it divides the day. -/
theorem keepsPeriod_iff {offset anchor interval start : Int} (low : 0 ≤ anchor)
    (high : anchor < 1440) (positive : 1 ≤ interval) (fits : interval * minute ≤ maxDuration)
    (onGrid : ∃ k : Int, start = epoch (fixedZone offset) start anchor + k * (interval * minute)) :
    KeepsPeriod (fixedZone offset) anchor interval start ↔ interval ∣ 1440 :=
  ⟨dvd_of_keepsPeriod low high positive fits onGrid,
    fun divides => keepsPeriod_of_dvd low high positive fits divides onGrid⟩

/-- Every eight hours from three o'clock on. -/
theorem keepsPeriod_iff_eightHours :
    KeepsPeriod (fixedZone 0) 180 480 (180 * minute) :=
  (@keepsPeriod_iff 0 180 480 (180 * minute) (by decide) (by decide) (by decide) (by decide)
    ⟨0, by decide⟩).mpr (by decide)

/-- A thousand minutes from three o'clock on: the second wait after midnight is
cut short. -/
theorem anchoredRuns_thousandMinutes :
    anchoredRuns (fixedZone 0) 180 1000 (180 * minute) 2 = some (2180 * minute) ∧
    anchoredRuns (fixedZone 0) 180 1000 (180 * minute) 3 = some (2620 * minute) ∧
      ¬ KeepsPeriod (fixedZone 0) 180 1000 (180 * minute) := by
  have second : anchoredRuns (fixedZone 0) 180 1000 (180 * minute) 2 = some (2180 * minute) := by
    decide +kernel
  have third : anchoredRuns (fixedZone 0) 180 1000 (180 * minute) 3 = some (2620 * minute) := by
    decide +kernel
  refine ⟨second, third, fun keeps => ?_⟩
  have claimed := (keeps 3).1
  rw [third] at claimed
  exact absurd claimed (by decide +kernel)

end DbBackup.Scheduler
