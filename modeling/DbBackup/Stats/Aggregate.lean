import DbBackup.Lib.Duration
import DbBackup.Lib.Sorting
import DbBackup.Stats.Journal
import Mathlib.Algebra.BigOperators.Group.List.Basic
import Mathlib.Data.Prod.Lex
import Mathlib.Data.String.Basic

/-!
Owns `Aggregate` of `internal/stats/journal.go`: the loop with its index and its growing slice, and
the sort behind it.

Contract: `aggregate_exact`. There is one entry for each operation and trigger, in their order, with
the counts and sums of its events. Sums are those of 64-bit integers. Only the checksum depends on
the order of the events.
-/

set_option linter.all false

namespace DbBackup.Stats

open Lib.Duration Lib.Sorting

/-! ### The source -/

structure Agg where
  op : String
  trigger : String
  n : Nat := 0
  ok : Nat := 0
  fail : Nat := 0
  kb : Int := 0
  rawKB : Int := 0
  ms : Int := 0
  checksum : String := ""
deriving DecidableEq

def Event.key (ev : Event) : String × String := (ev.op, ev.trigger)

def Agg.key (agg : Agg) : String × String := (agg.op, agg.trigger)

def Agg.add (agg : Agg) (ev : Event) : Agg :=
  { agg with
    n := agg.n + 1
    ok := if ev.ok then agg.ok + 1 else agg.ok
    fail := if ev.ok then agg.fail else agg.fail + 1
    kb := wrap64 (agg.kb + ev.kb)
    rawKB := wrap64 (agg.rawKB + ev.rawKB)
    ms := wrap64 (agg.ms + ev.ms)
    checksum := if agg.checksum = "" then ev.checksum else agg.checksum }

structure Aggregating where
  idx : String × String → Option Nat := fun _ => none
  aggs : List Agg := []

/-- The place of an event's entry, which is made where there is none. -/
def Aggregating.place (state : Aggregating) (ev : Event) : Nat × Aggregating :=
  match state.idx ev.key with
  | some i => (i, state)
  | none =>
    (state.aggs.length,
      { idx := fun k => if k = ev.key then some state.aggs.length else state.idx k
        aggs := state.aggs ++ [{ op := ev.op, trigger := ev.trigger }] })

def Aggregating.step (state : Aggregating) (ev : Event) : Aggregating :=
  let placed := state.place ev
  { placed.2 with aggs := placed.2.aggs.modify placed.1 (·.add ev) }

def aggLess (a b : Agg) : Bool :=
  if a.op ≠ b.op then decide (a.op < b.op) else decide (a.trigger < b.trigger)

/-- `sort.SliceStable`; no two entries are equal under `aggLess`, so that any sort is as good. -/
def aggregate (sort : SliceSort aggLess) (events : List Event) : List Agg :=
  sort.run (events.foldl Aggregating.step {}).aggs

/-! ### The loop -/

/-- What one entry gathers of all events. -/
def gathered (events : List Event) (k : String × String) : Agg :=
  (events.filter fun ev => ev.key = k).foldl Agg.add { op := k.1, trigger := k.2 }

/-- The state of the loop after some events: the keys seen so far, in the order of their first
events, are the places of the entries. -/
structure Gathers (events : List Event) (seen : List (String × String)) (state : Aggregating) :
    Prop where
  unique : seen.Nodup
  mem_seen : ∀ k, k ∈ seen ↔ ∃ ev ∈ events, ev.key = k
  idx : ∀ k i, state.idx k = some i ↔ seen[i]? = some k
  aggs : state.aggs = seen.map (gathered events)

theorem gathered_concat_same (events : List Event) (ev : Event) :
    gathered (events ++ [ev]) ev.key = (gathered events ev.key).add ev := by
  unfold gathered
  rw [List.filter_append, List.filter_cons_of_pos (by simp), List.filter_nil, List.foldl_append]
  rfl

theorem gathered_concat_other (events : List Event) {ev : Event} {k : String × String}
    (other : ev.key ≠ k) : gathered (events ++ [ev]) k = gathered events k := by
  unfold gathered
  rw [List.filter_append, List.filter_cons_of_neg (by simpa using other), List.filter_nil,
    List.append_nil]

variable {events : List Event}

theorem gathered_new {k : String × String}
    (new : ¬ ∃ ev ∈ events, ev.key = k) : gathered events k = { op := k.1, trigger := k.2 } := by
  unfold gathered
  rw [List.filter_eq_nil_iff.mpr fun ev mem => by simpa using fun same => new ⟨ev, mem, same⟩]
  rfl

variable {seen : List (String × String)}

/-- An entry at its place takes the event, the others stay. -/
theorem modify_map_gathered
    (unique : seen.Nodup) {ev : Event} {i : Nat} (isPlace : seen[i]? = some ev.key) :
    (seen.map (gathered events)).modify i (·.add ev) = seen.map (gathered (events ++ [ev])) := by
  apply List.ext_getElem?
  intro j
  rw [List.getElem?_modify, List.getElem?_map, List.getElem?_map]
  cases atIndex : seen[j]? with
  | none => rfl
  | some k =>
    rw [Option.map_some, Option.map_some, Option.map_eq_map, Option.map_some]
    by_cases here : i = j
    · subst here
      rw [isPlace] at atIndex
      cases atIndex
      rw [if_pos rfl, gathered_concat_same]
    · have other : ev.key ≠ k := by
        rintro rfl
        have inRange := (List.getElem?_eq_some_iff.mp isPlace).1
        exact here ((List.getElem?_inj inRange unique).mp (isPlace.trans atIndex.symm))
      rw [if_neg here, gathered_concat_other events other]

theorem mem_seen_concat
    (mem_seen : ∀ k, k ∈ seen ↔ ∃ ev ∈ events, ev.key = k) (ev : Event) (k : String × String) :
    k ∈ seen ∨ k = ev.key ↔ ∃ other ∈ events ++ [ev], other.key = k := by
  constructor
  · rintro (known | rfl)
    · obtain ⟨other, mem, same⟩ := (mem_seen k).mp known
      exact ⟨other, List.mem_append_left _ mem, same⟩
    · exact ⟨ev, List.mem_append_right _ (List.mem_singleton_self ev), rfl⟩
  · rintro ⟨other, mem, rfl⟩
    rcases List.mem_append.mp mem with earlier | last
    · exact .inl ((mem_seen _).mpr ⟨other, earlier, rfl⟩)
    · exact .inr (congrArg Event.key (List.mem_singleton.mp last))

theorem Gathers.step {state : Aggregating} (gathers : Gathers events seen state) (ev : Event) :
    ∃ seen', Gathers (events ++ [ev]) seen' (state.step ev) := by
  unfold Aggregating.step Aggregating.place
  cases place : state.idx ev.key with
  | some i =>
    have isPlace := (gathers.idx ev.key i).mp place
    have known : ev.key ∈ seen := List.mem_of_getElem? isPlace
    refine ⟨seen, gathers.unique, fun k => ?_, gathers.idx, ?_⟩
    · rw [← mem_seen_concat gathers.mem_seen ev k]
      exact ⟨.inl, fun either => either.elim id fun same => same ▸ known⟩
    · dsimp only
      rw [gathers.aggs, modify_map_gathered gathers.unique isPlace]
  | none =>
    have unknown : ev.key ∉ seen := by
      intro known
      obtain ⟨i, atIndex⟩ := List.mem_iff_getElem?.mp known
      rw [(gathers.idx ev.key i).mpr atIndex] at place
      cases place
    have length : state.aggs.length = seen.length := by
      rw [gathers.aggs, List.length_map]
    have unique : (seen ++ [ev.key]).Nodup := by
      rw [List.nodup_append]
      refine ⟨gathers.unique, List.nodup_singleton _, fun k mem other isNew => ?_⟩
      rw [List.mem_singleton.mp isNew]
      exact fun same => unknown (same ▸ mem)
    have isPlace : (seen ++ [ev.key])[seen.length]? = some ev.key := List.getElem?_concat_length
    refine ⟨seen ++ [ev.key], unique, fun k => ?_, fun k i => ?_, ?_⟩
    · rw [← mem_seen_concat gathers.mem_seen ev k, List.mem_append, List.mem_singleton]
    · dsimp only
      by_cases same : k = ev.key
      · subst same
        rw [if_pos rfl, length, Option.some.injEq]
        constructor
        · rintro rfl
          exact isPlace
        · intro atIndex
          have inRange := (List.getElem?_eq_some_iff.mp isPlace).1
          exact (List.getElem?_inj inRange unique).mp (isPlace.trans atIndex.symm)
      · rw [if_neg same, gathers.idx]
        rcases Nat.lt_trichotomy i seen.length with inside | rfl | beyond
        · rw [List.getElem?_append_left inside]
        · rw [isPlace, List.getElem?_eq_none (Nat.le_refl _)]
          simp [Ne.symm same]
        · rw [List.getElem?_eq_none (Nat.le_of_lt beyond), List.getElem?_eq_none (by simp; omega)]
    · have entries : state.aggs ++ [{ op := ev.op, trigger := ev.trigger }] =
          (seen ++ [ev.key]).map (gathered events) := by
        have new : ¬ ∃ other ∈ events, other.key = ev.key :=
          fun found => unknown ((gathers.mem_seen _).mpr found)
        rw [gathers.aggs, List.map_append, List.map_singleton, gathered_new new]
        rfl
      dsimp only
      rw [entries, length, modify_map_gathered unique isPlace]

theorem gathers_foldl {state : Aggregating}
    (gathers : Gathers events seen state) (rest : List Event) :
    ∃ seen', Gathers (events ++ rest) seen' (rest.foldl Aggregating.step state) := by
  induction rest generalizing events seen state with
  | nil => exact ⟨seen, by rwa [List.append_nil]⟩
  | cons ev rest ih =>
    obtain ⟨seen', next⟩ := gathers.step ev
    obtain ⟨last, after⟩ := ih next
    rw [List.append_assoc, List.singleton_append] at after
    exact ⟨last, after⟩

theorem gathers_nil : Gathers [] [] {} where
  unique := List.nodup_nil
  mem_seen k := by simp
  idx k i := by simp
  aggs := rfl

/-! ### Counts and sums -/

/-- What the events of one operation and trigger add up to. -/
structure Agg.Totals (agg : Agg) (events : List Event) : Prop where
  n : agg.n = events.length
  ok : agg.ok = events.countP fun ev => ev.ok
  fail : agg.fail = events.countP fun ev => !ev.ok
  kb : agg.kb = wrap64 (events.map Event.kb).sum
  rawKB : agg.rawKB = wrap64 (events.map Event.rawKB).sum
  ms : agg.ms = wrap64 (events.map Event.ms).sum

theorem wrap64_wrap64_add (a b : Int) : wrap64 (wrap64 a + b) = wrap64 (a + b) := by
  unfold wrap64
  omega

variable {agg : Agg}

theorem Agg.Totals.add (totals : agg.Totals events) (ev : Event) :
    (agg.add ev).Totals (events ++ [ev]) where
  n := by simp [Agg.add, totals.n]
  ok := by
    cases isOK : ev.ok <;> simp [Agg.add, totals.ok, isOK]
  fail := by
    cases isOK : ev.ok <;> simp [Agg.add, totals.fail, isOK]
  kb := by simp [Agg.add, totals.kb, wrap64_wrap64_add]
  rawKB := by simp [Agg.add, totals.rawKB, wrap64_wrap64_add]
  ms := by simp [Agg.add, totals.ms, wrap64_wrap64_add]

theorem totals_foldl (totals : agg.Totals events)
    (rest : List Event) : (rest.foldl Agg.add agg).Totals (events ++ rest) := by
  induction rest generalizing agg events with
  | nil => rwa [List.append_nil]
  | cons ev rest ih =>
    have after := ih (totals.add ev)
    rwa [List.append_assoc, List.singleton_append] at after

theorem totals_gathered (events : List Event) (k : String × String) :
    (gathered events k).Totals (events.filter fun ev => ev.key = k) := by
  have start : Agg.Totals { op := k.1, trigger := k.2 } [] := ⟨rfl, rfl, rfl, rfl, rfl, rfl⟩
  exact totals_foldl start _

theorem key_foldl (agg : Agg) (events : List Event) : (events.foldl Agg.add agg).key = agg.key := by
  induction events generalizing agg with
  | nil => rfl
  | cons ev rest ih => exact ih _

theorem key_gathered (events : List Event) (k : String × String) :
    (gathered events k).key = k := key_foldl _ _

/-! ### The sort -/

theorem aggLess_iff (a b : Agg) : aggLess a b = true ↔ toLex a.key < toLex b.key := by
  unfold aggLess
  rw [Prod.Lex.toLex_lt_toLex]
  change _ ↔ a.op < b.op ∨ a.op = b.op ∧ a.trigger < b.trigger
  by_cases sameOp : a.op = b.op
  · rw [if_neg (not_not.mpr sameOp), decide_eq_true_eq]
    exact ⟨fun less => .inr ⟨sameOp, less⟩, fun either => either.elim
      (fun less => absurd sameOp less.ne) And.right⟩
  · rw [if_pos sameOp, decide_eq_true_eq]
    exact ⟨.inl, fun either => either.elim id fun both => absurd both.1 sameOp⟩

/-- Two lists with their keys in strict order and the same entries are the same. -/
theorem eq_of_strictly_sorted {α : Type} {key : α → String × String} {first second : List α}
    (firstSorted : first.Pairwise fun a b => toLex (key a) < toLex (key b))
    (secondSorted : second.Pairwise fun a b => toLex (key a) < toLex (key b))
    (same : ∀ item, item ∈ first ↔ item ∈ second) : first = second := by
  have nodup {items : List α} (sorted : items.Pairwise fun a b => toLex (key a) < toLex (key b)) :
      items.Nodup := by
    refine sorted.imp fun less => ?_
    rintro rfl
    exact lt_irrefl _ less
  have perm : first.Perm second :=
    (List.perm_ext_iff_of_nodup (nodup firstSorted) (nodup secondSorted)).mpr same
  refine perm.eq_of_pairwise (fun a b _ _ ab ba => ?_) firstSorted secondSorted
  exact absurd ab (lt_asymm ba)

variable (sort : SliceSort aggLess)

theorem strictly_sorted_run {aggs : List Agg} (unique : (aggs.map Agg.key).Nodup) :
    (sort.run aggs).Pairwise fun a b => toLex a.key < toLex b.key := by
  have distinct : ((sort.run aggs).map Agg.key).Nodup :=
    ((sort.perm aggs).map Agg.key).nodup_iff.mpr unique
  refine ((sort.sorted aggs).and (List.pairwise_map.mp distinct)).imp fun both => ?_
  rename_i a b
  have notLess : ¬ toLex b.key < toLex a.key := by
    rw [← aggLess_iff, both.1]
    decide
  exact lt_of_le_of_ne (not_lt.mp notLess) fun same => both.2 (toLex_inj.mp same)

/-- The entry without the field that depends on the order. -/
def Agg.withoutChecksum (agg : Agg) : Agg := { agg with checksum := "" }

theorem Agg.Totals.withoutChecksum_eq {first second : Agg} {one two : List Event}
    (firstTotals : first.Totals one) (secondTotals : second.Totals two) (perm : one.Perm two)
    (sameKey : first.key = second.key) : first.withoutChecksum = second.withoutChecksum := by
  obtain ⟨sameOp, sameTrigger⟩ := Prod.mk.inj sameKey
  unfold Agg.withoutChecksum
  rw [sameOp, sameTrigger, firstTotals.n, secondTotals.n, firstTotals.ok, secondTotals.ok,
    firstTotals.fail, secondTotals.fail, firstTotals.kb, secondTotals.kb, firstTotals.rawKB,
    secondTotals.rawKB, firstTotals.ms, secondTotals.ms, perm.length_eq, perm.countP_eq,
    perm.countP_eq, (perm.map Event.kb).sum_eq, (perm.map Event.rawKB).sum_eq,
    (perm.map Event.ms).sum_eq]

/-- The entries are those gathered for the keys of the events. -/
theorem mem_aggregate (events : List Event) (agg : Agg) :
    agg ∈ aggregate sort events ↔ ∃ ev ∈ events, gathered events ev.key = agg := by
  obtain ⟨seen, gathers⟩ := gathers_foldl gathers_nil events
  unfold aggregate
  rw [sort.mem_run, gathers.aggs, List.mem_map]
  constructor
  · rintro ⟨k, isSeen, rfl⟩
    obtain ⟨ev, mem, rfl⟩ := (gathers.mem_seen k).mp isSeen
    exact ⟨ev, mem, rfl⟩
  · rintro ⟨ev, mem, rfl⟩
    exact ⟨ev.key, (gathers.mem_seen _).mpr ⟨ev, mem, rfl⟩, rfl⟩

theorem mem_withoutChecksum_of_perm {events others : List Event} (perm : events.Perm others)
    (mem : agg ∈ (aggregate sort events).map Agg.withoutChecksum) :
    agg ∈ (aggregate sort others).map Agg.withoutChecksum := by
  obtain ⟨own, isOwn, rfl⟩ := List.mem_map.mp mem
  obtain ⟨ev, isEvent, rfl⟩ := (mem_aggregate sort events own).mp isOwn
  refine List.mem_map.mpr ⟨gathered others ev.key,
    (mem_aggregate sort others _).mpr ⟨ev, perm.mem_iff.mp isEvent, rfl⟩, ?_⟩
  refine (totals_gathered others ev.key).withoutChecksum_eq (totals_gathered events ev.key)
    (perm.symm.filter _) ?_
  rw [key_gathered, key_gathered]

theorem aggregate_sorted (events : List Event) :
    (aggregate sort events).Pairwise fun a b => toLex a.key < toLex b.key := by
  obtain ⟨seen, gathers⟩ := gathers_foldl gathers_nil events
  refine strictly_sorted_run sort ?_
  have keys : Agg.key ∘ gathered ([] ++ events) = id := funext fun k => key_gathered _ k
  rw [gathers.aggs, List.map_map, keys, List.map_id]
  exact gathers.unique

/-- Every operation and trigger has one entry, in their order, with the counts and sums of its
events, and a permutation of the events changes nothing but checksums. -/
theorem aggregate_exact (sort : SliceSort aggLess) (events : List Event) :
    (aggregate sort events).Pairwise (fun a b => toLex a.key < toLex b.key) ∧
    (∀ k, (∃ agg ∈ aggregate sort events, agg.key = k) ↔ ∃ ev ∈ events, ev.key = k) ∧
    (∀ agg ∈ aggregate sort events, agg.n = agg.ok + agg.fail ∧
      agg.Totals (events.filter fun ev => ev.key = agg.key)) ∧
    ∀ others, events.Perm others → (aggregate sort others).map Agg.withoutChecksum =
      (aggregate sort events).map Agg.withoutChecksum := by
  have ownKey {agg : Agg} {events : List Event} (mem : agg ∈ aggregate sort events) :
      gathered events agg.key = agg := by
    obtain ⟨ev, -, rfl⟩ := (mem_aggregate sort events agg).mp mem
    rw [key_gathered]
  refine ⟨aggregate_sorted sort events, fun k => ⟨?_, ?_⟩, fun agg mem => ?_, fun others perm => ?_⟩
  · rintro ⟨agg, mem, rfl⟩
    obtain ⟨ev, isEvent, rfl⟩ := (mem_aggregate sort events agg).mp mem
    exact ⟨ev, isEvent, (key_gathered _ _).symm⟩
  · rintro ⟨ev, mem, rfl⟩
    exact ⟨gathered events ev.key, (mem_aggregate sort events _).mpr ⟨ev, mem, rfl⟩,
      key_gathered _ _⟩
  · have totals := totals_gathered events agg.key
    rw [ownKey mem] at totals
    refine ⟨?_, totals⟩
    rw [totals.n, totals.ok, totals.fail, List.length_eq_countP_add_countP fun ev => ev.ok]
    simp
  · -- Both results are in the strict order of their keys.
    refine @eq_of_strictly_sorted _ Agg.key _ _ ?_ ?_ fun agg => ⟨?_, ?_⟩
    · exact List.pairwise_map.mpr (aggregate_sorted sort others)
    · exact List.pairwise_map.mpr (aggregate_sorted sort events)
    · exact mem_withoutChecksum_of_perm sort perm.symm
    · exact mem_withoutChecksum_of_perm sort perm

end DbBackup.Stats
