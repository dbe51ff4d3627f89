import Mathlib

/-!
Owns tables of buckets that are added to and swept: an entry is added to the bucket of its index,
and a sweep reads the buckets from a lower bound on and deletes those below it.

Contract: a table `Agrees` from a bound on with the entries that were ever added to it. Adding
keeps that (`Agrees.bump`), a sweep with a lower bound keeps it whatever it deletes
(`Agrees.sweep`), and what a sweep reads is what was added from its bound on (`sweep_total`).
-/

namespace DbBackup.Lib.Buckets

abbrev Map (κ V : Type) := AList fun _ : κ => V

variable {ι V A : Type} [LinearOrder ι] [AddCommMonoid V] [AddCommMonoid A]

/-! ### Tables -/

def bump (table : Map ι V) (index : ι) (value : V) : Map ι V :=
  table.insert index ((table.lookup index).getD 0 + value)

def sweepStep (low : ι) (read : V → A) (swept : Map ι V × A) (index : ι) : Map ι V × A :=
  if index < low then (swept.1.erase index, swept.2)
  else (swept.1, swept.2 + read ((swept.1.lookup index).getD 0))

/-- One pass over the indices in the given order. -/
def sweep (low : ι) (read : V → A) (order : List ι) (table : Map ι V) : Map ι V × A :=
  order.foldl (sweepStep low read) (table, 0)

/-- What was added at an index. -/
def bucket (entries : List (ι × V)) (index : ι) : List V :=
  (entries.filter (·.1 = index)).map Prod.snd

/-- From the bound on, the table holds the sums of what was added and nothing else. -/
def Agrees (low : ι) (entries : List (ι × V)) (table : Map ι V) : Prop :=
  ∀ index, low ≤ index → table.lookup index =
    if bucket entries index = [] then none else some (bucket entries index).sum

/-! ### Adding -/

omit [AddCommMonoid V] in
theorem bucket_append (entries more : List (ι × V)) (index : ι) :
    bucket (entries ++ more) index = bucket entries index ++ bucket more index := by
  simp [bucket]

variable (low : ι)

theorem Agrees.empty : Agrees low ([] : List (ι × V)) ∅ := by
  intro index _
  simp [bucket]

variable {entries : List (ι × V)} {table : Map ι V}

theorem Agrees.getD {low : ι}
    (agrees : Agrees low entries table) {index : ι} (above : low ≤ index) :
    (table.lookup index).getD 0 = (bucket entries index).sum := by
  rw [agrees index above]
  split
  · rename_i none
    simp [none]
  · rfl

theorem Agrees.bump {low : ι} (agrees : Agrees low entries table) (index : ι) (value : V) :
    Agrees low (entries ++ [(index, value)]) (bump table index value) := by
  intro other above
  rw [bucket_append, Buckets.bump]
  by_cases same : other = index
  · subst same
    have new : bucket [(other, value)] other = [value] := by simp [bucket]
    rw [AList.lookup_insert, agrees.getD above, new, if_neg (by simp), List.sum_append,
      List.sum_singleton]
  · have new : bucket [(index, value)] other = [] := by simp [bucket, Ne.symm same]
    rw [AList.lookup_insert_ne same, new, List.append_nil, agrees other above]

/-! ### Sweeping -/

theorem lookup_foldl_sweepStep (read : V → A) (order : List ι) (swept : Map ι V × A)
    {index : ι} (above : low ≤ index) :
    (order.foldl (sweepStep low read) swept).1.lookup index = swept.1.lookup index := by
  induction order generalizing swept with
  | nil => rfl
  | cons first rest ih =>
    rw [List.foldl_cons, ih, sweepStep]
    split
    · rename_i below
      exact AList.lookup_erase_ne (by rintro rfl; exact absurd below (not_lt.mpr above))
    · rfl

theorem Agrees.sweep {low bound : ι}
    (agrees : Agrees low entries table) (le : bound ≤ low) (read : V → A) (order : List ι) :
    Agrees low entries (sweep bound read order table).1 := by
  intro index above
  rw [Buckets.sweep, lookup_foldl_sweepStep bound read order _ (le.trans above), agrees index above]

theorem foldl_sweepStep_total (read : V → A) (order : List ι) (swept : Map ι V × A) :
    (order.foldl (sweepStep low read) swept).2 = swept.2 +
      ((order.filter (low ≤ ·)).map fun index => read ((swept.1.lookup index).getD 0)).sum := by
  induction order generalizing swept with
  | nil => simp
  | cons first rest ih =>
    rw [List.foldl_cons, ih, sweepStep]
    by_cases below : first < low
    · rw [if_pos below, List.filter_cons_of_neg (by simpa using below)]
      congr 2
      apply List.map_congr_left
      intro index kept
      have above : low ≤ index := by simpa using (List.mem_filter.mp kept).2
      rw [AList.lookup_erase_ne (by rintro rfl; exact absurd below (not_lt.mpr above))]
    · rw [if_neg below, List.filter_cons_of_pos (by simpa using below), List.map_cons,
        List.sum_cons, add_assoc]

/-- Each entry is in one of the buckets of a list of indices that has them all. -/
theorem sum_map_sum_bucket {indices : List ι} (distinct : indices.Nodup)
    (covered : ∀ entry ∈ entries, entry.1 ∈ indices) :
    (indices.map fun index => (bucket entries index).sum).sum = (entries.map Prod.snd).sum := by
  induction entries with
  | nil => simp [bucket]
  | cons entry rest ih =>
    have split (index : ι) : (bucket (entry :: rest) index).sum =
        (if index = entry.1 then entry.2 else 0) + (bucket rest index).sum := by
      unfold bucket
      by_cases here : entry.1 = index
      · simp [here]
      · simp [here, Ne.symm here]
    have once : (indices.map fun index => if index = entry.1 then entry.2 else 0).sum = entry.2 := by
      rw [List.sum_map_eq_nsmul_single entry.1 _ fun index away _ => if_neg away,
        List.count_eq_one_of_mem distinct (covered entry (by simp)), one_nsmul, if_pos rfl]
    simp only [split]
    rw [List.sum_map_add, once, ih fun other later => covered other (by simp [later]),
      List.map_cons, List.sum_cons]

omit [AddCommMonoid V] in
theorem bucket_filter (entries : List (ι × V)) {low index : ι} (above : low ≤ index) :
    bucket (entries.filter (low ≤ ·.1)) index = bucket entries index := by
  unfold bucket
  rw [List.filter_filter]
  congr 1
  apply List.filter_congr
  intro entry _
  by_cases here : entry.1 = index
  · simp [here, above]
  · simp [here]

theorem sweep_total {low : ι} (agrees : Agrees low entries table) (read : V →+ A) {order : List ι}
    (all : order.Perm table.keys) :
    (sweep low read order table).2 =
      ((entries.filter (low ≤ ·.1)).map fun entry => read entry.2).sum := by
  have distinct : (order.filter (low ≤ ·)).Nodup :=
    (all.nodup_iff.mpr table.keys_nodup).filter _
  have covered : ∀ entry ∈ entries.filter (low ≤ ·.1), entry.1 ∈ order.filter (low ≤ ·) := by
    intro entry kept
    obtain ⟨member, above⟩ := List.mem_filter.mp kept
    refine List.mem_filter.mpr ⟨all.mem_iff.mpr ?_, above⟩
    rw [← AList.mem_keys, ← AList.lookup_isSome, agrees entry.1 (by simpa using above),
      if_neg fun none => ?_]
    · rfl
    · have here : entry.2 ∈ bucket entries entry.1 :=
        List.mem_map.mpr ⟨entry, List.mem_filter.mpr ⟨member, by simp⟩, rfl⟩
      rw [none] at here
      exact List.not_mem_nil here
  have sums : ((order.filter (low ≤ ·)).map fun index => (table.lookup index).getD 0) =
      (order.filter (low ≤ ·)).map fun index =>
        (bucket (entries.filter (low ≤ ·.1)) index).sum := by
    apply List.map_congr_left
    intro index kept
    have above : low ≤ index := by simpa using (List.mem_filter.mp kept).2
    rw [agrees.getD above, bucket_filter entries above]
  calc (sweep low read order table).2
      = ((order.filter (low ≤ ·)).map fun index => read ((table.lookup index).getD 0)).sum := by
        rw [sweep, foldl_sweepStep_total, zero_add]
    _ = read ((order.filter (low ≤ ·)).map fun index => (table.lookup index).getD 0).sum := by
        rw [map_list_sum, List.map_map]
        rfl
    _ = read ((entries.filter (low ≤ ·.1)).map Prod.snd).sum := by
        rw [sums, sum_map_sum_bucket distinct covered]
    _ = ((entries.filter (low ≤ ·.1)).map fun entry => read entry.2).sum := by
        rw [map_list_sum, List.map_map]
        rfl

end DbBackup.Lib.Buckets
