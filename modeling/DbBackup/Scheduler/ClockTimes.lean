import DbBackup.Scheduler.Cron
import Mathlib.Order.Bounds.Basic

/-!
Owns lists of clock times: how `parse` builds them, and the instant
`TimeList.Next` returns (`internal/config/schedule.go`).

Every call of `parse` sorts the whole list, so the first listed time that is
still ahead is the next one, and after the last of them comes the first of the
next day. Contract: `nextTime_isLeast`.
-/

namespace DbBackup.Scheduler

open Config Lib.Time Lib.Zone

/-! ### Sorted lists -/

theorem parseTimes_sorted {times read : List Int} {s : String}
    (parsed : parseTimes times s = .ok read) : read.Pairwise (· ≤ ·) := by
  obtain ⟨added, -, sorted⟩ := bind_eq_ok.mp parsed
  rw [← Except.ok.inj sorted]
  have inOrder := @List.pairwise_mergeSort _ (fun a b : Int => decide (a ≤ b))
    (fun a b c => by simpa using Int.le_trans) (fun a b => by simpa using Int.le_total a b)
    (times ++ added)
  simpa using inOrder

theorem decodeTimes_sorted {node : Option TextList} {times : List Int}
    (decoded : decodeTimes node = .ok times) : times.Pairwise (· ≤ ·) := by
  exact foldlM_ok_keeps (fun _ _ _ parsed _ => parseTimes_sorted parsed) List.Pairwise.nil decoded

/-- The first element above a bound is the least one above it. -/
theorem le_of_find?_above {times : List Int} (sorted : times.Pairwise (· ≤ ·)) {bound m : Int}
    (found : times.find? (bound < ·) = some m) : ∀ other ∈ times, bound < other → m ≤ other := by
  induction times with
  | nil => cases found
  | cons first rest ih =>
    obtain ⟨lowest, restSorted⟩ := List.pairwise_cons.mp sorted
    intro other member above
    by_cases firstAbove : bound < first
    · rw [List.find?_cons_of_pos (by simpa using firstAbove)] at found
      rw [← Option.some.inj found]
      rcases List.mem_cons.mp member with rfl | inRest
      · exact le_refl _
      · exact lowest other inRest
    · rw [List.find?_cons_of_neg (by simpa using firstAbove)] at found
      rcases List.mem_cons.mp member with rfl | inRest
      · exact absurd above firstAbove
      · exact ih restSorted found other inRest above

/-! ### Minutes of the local clock -/

/-- Whether the clock shows a listed time, at second zero. -/
def AtListedTime (loc : Location) (times : List Int) (t : Int) : Prop :=
  second ∣ t ∧ loc.localSecond t % 60 = 0 ∧ loc.minuteOfDay t ∈ times

/-- The instant at which a clock that is never shifted shows the given minute,
counted from the epoch. -/
def minuteStart (offset index : Int) : Int := (index * 60 - offset) * second

section Fixed

variable {offset now : Int} {times : List Int}

theorem atListedTime_iff {t : Int} :
    AtListedTime (fixedZone offset) times t ↔
      ∃ index : Int, index % 1440 ∈ times ∧ t = minuteStart offset index := by
  unfold AtListedTime Location.minuteOfDay Location.localSecond unixSecond minuteStart
  show second ∣ t ∧ (t / second + offset) % 60 = 0 ∧ (t / second + offset) % 86400 / 60 ∈ times ↔ _
  constructor
  · rintro ⟨⟨sec, rfl⟩, onMinute, listed⟩
    have isSecond : second * sec / second = sec := Int.mul_ediv_cancel_left _ (by decide)
    rw [isSecond] at onMinute listed
    refine ⟨(sec + offset) / 60, ?_, ?_⟩
    · have sameMinute : (sec + offset) / 60 % 1440 = (sec + offset) % 86400 / 60 := by omega
      rwa [sameMinute]
    · rw [Int.mul_comm]
      congr 1
      omega
  · rintro ⟨index, listed, rfl⟩
    have isSecond : (index * 60 - offset) * second / second = index * 60 - offset :=
      Int.mul_ediv_cancel _ (by decide)
    rw [isSecond]
    refine ⟨Int.dvd_mul_left .., by omega, ?_⟩
    have sameMinute : (index * 60 - offset + offset) % 86400 / 60 = index % 1440 := by omega
    rwa [sameMinute]

theorem lt_minuteStart_iff {index : Int} :
    now < minuteStart offset index ↔ (fixedZone offset).localSecond now / 60 < index := by
  show now < (index * 60 - offset) * second ↔ (now / second + offset) / 60 < index
  unfold second
  omega

theorem minuteStart_le {index other : Int} :
    minuteStart offset index ≤ minuteStart offset other ↔ index ≤ other := by
  unfold minuteStart second
  omega

/-- The minute `TimeList.Next` goes to. -/
theorem nextTime_fixed (notEmpty : times ≠ []) :
    nextTime (fixedZone offset) times now =
      some (minuteStart offset ((fixedZone offset).localDay now * 1440 +
        match times.find? fun m => (fixedZone offset).minuteOfDay now < m with
        | some m => m
        | none => 1440 + times.headD 0)) := by
  rw [nextTime_eq _ notEmpty]
  unfold nextWall minuteStart
  show some _ = some _
  congr 2
  show (fixedZone offset).unixOf _ + _ = _
  unfold Location.unixOf Location.minuteOfDay Location.localDay
  cases times.find? fun m => (fixedZone offset).localSecond now % 86400 / 60 < m with
  | some m =>
    show _ / 86400 * 86400 + m * 60 - offset + 0 = _
    simp only
    omega
  | none =>
    show _ / 86400 * 86400 + times.headD 0 * 60 - offset + 86400 = _
    simp only
    omega

theorem isLeast_minute (sorted : times.Pairwise (· ≤ ·))
    (inDay : ∀ m ∈ times, 0 ≤ m ∧ m < 1440) (notEmpty : times ≠ []) (shown : Int) :
    IsLeast {index : Int | shown < index ∧ index % 1440 ∈ times} (shown / 1440 * 1440 +
      match times.find? fun m => shown % 1440 < m with
      | some m => m
      | none => 1440 + times.headD 0) := by
  cases found : times.find? fun m => shown % 1440 < m with
  | some m =>
    have member := List.mem_of_find?_eq_some found
    have ahead : shown % 1440 < m := by simpa using List.find?_some found
    obtain ⟨low, high⟩ := inDay m member
    refine ⟨⟨by simp only; omega, ?_⟩, ?_⟩
    · have isMinute : (shown / 1440 * 1440 + m) % 1440 = m := by omega
      simp only
      rwa [isMinute]
    · rintro index ⟨later, listed⟩
      simp only
      by_cases sameDay : index / 1440 = shown / 1440
      · have least := le_of_find?_above sorted found _ listed (by omega)
        omega
      · omega
  | none =>
    cases times with
    | nil => exact absurd rfl notEmpty
    | cons first rest =>
      obtain ⟨low, high⟩ := inDay first List.mem_cons_self
      have noneLeft := List.find?_eq_none.mp found
      refine ⟨⟨by simp only [List.headD_cons]; omega, ?_⟩, ?_⟩
      · have isMinute : (shown / 1440 * 1440 + (1440 + first)) % 1440 = first := by omega
        simp only [List.headD_cons]
        rw [isMinute]
        exact List.mem_cons_self
      · rintro index ⟨later, listed⟩
        simp only [List.headD_cons]
        have notAhead : index % 1440 ≤ shown % 1440 := by
          simpa using noneLeft _ listed
        have lowest : first ≤ index % 1440 := by
          rcases List.mem_cons.mp listed with same | inRest
          · exact le_of_eq same.symm
          · exact (List.pairwise_cons.mp sorted).1 _ inRest
        omega

end Fixed

/-- A list that was read from a configuration fires at the next listed time. -/
theorem nextTime_isLeast {node : Option TextList} {times : List Int}
    (decoded : decodeTimes node = .ok times) (offset now : Int) :
    (∀ next, nextTime (fixedZone offset) times now = some next ↔
      IsLeast {t | now < t ∧ AtListedTime (fixedZone offset) times t} next) ∧
    (times ≠ [] → ∃ next, nextTime (fixedZone offset) times now = some next) := by
  by_cases notEmpty : times ≠ []
  · have least := isLeast_minute (decodeTimes_sorted decoded) (decodeTimes_range decoded) notEmpty
      ((fixedZone offset).localSecond now / 60)
    have sameDay : (fixedZone offset).localSecond now / 60 / 1440 =
        (fixedZone offset).localDay now := by
      unfold Location.localDay
      omega
    have sameMinute : (fixedZone offset).localSecond now / 60 % 1440 =
        (fixedZone offset).minuteOfDay now := by
      unfold Location.minuteOfDay
      omega
    have isNext := @nextTime_fixed offset now times notEmpty
    rw [sameDay, sameMinute] at least
    generalize (fixedZone offset).localDay now * 1440 + _ = index at least isNext
    have isLeast : IsLeast {t | now < t ∧ AtListedTime (fixedZone offset) times t}
        (minuteStart offset index) := by
      refine ⟨⟨lt_minuteStart_iff.mpr least.1.1, atListedTime_iff.mpr ⟨index, least.1.2, rfl⟩⟩, ?_⟩
      rintro t ⟨later, listed⟩
      obtain ⟨other, inTimes, rfl⟩ := atListedTime_iff.mp listed
      exact minuteStart_le.mpr (least.2 ⟨lt_minuteStart_iff.mp later, inTimes⟩)
    refine ⟨fun next => ?_, fun _ => ⟨_, isNext⟩⟩
    rw [isNext, Option.some.injEq]
    constructor
    · rintro rfl
      exact isLeast
    · intro alsoLeast
      exact isLeast.unique alsoLeast
  · have isEmpty : times = [] := by simpa using notEmpty
    refine ⟨fun next => ?_, fun notEmpty => absurd isEmpty notEmpty⟩
    rw [isEmpty]
    constructor
    · intro isNext
      cases isNext
    · rintro ⟨⟨-, -, -, listed⟩, -⟩
      cases listed

theorem nextTime_isLeast_twice :
    decodeTimes (some (.sequence ["22:30", "0415"])) = .ok [255, 1350] ∧
      ∃ next, nextTime (fixedZone 3600) [255, 1350] 0 = some next := by
  have evening : parseTimes [] "22:30" = .ok [1350] := by decide +kernel
  have swapped : ([1350] ++ [255] : List Int).mergeSort (· ≤ ·) = [255, 1350] := by
    simp [List.mergeSort]
  have morning : parseTimes [1350] "0415" = .ok (([1350] ++ [255] : List Int).mergeSort (· ≤ ·)) :=
    bind_eq_ok.mpr ⟨[255], by decide +kernel, rfl⟩
  have decoded : decodeTimes (some (.sequence ["22:30", "0415"])) = .ok [255, 1350] := by
    show (parseTimes [] "22:30" >>= fun times => parseTimes times "0415" >>= pure) = _
    rw [evening]
    show (parseTimes [1350] "0415" >>= pure) = _
    rw [morning, swapped]
    rfl
  exact ⟨decoded, (nextTime_isLeast decoded 3600 0).2 (by decide)⟩

end DbBackup.Scheduler
