import DbBackup.Pipeline.ChunkWriter

/-!
Owns how many segments the parallel compressor holds at a time.

The slots limit how many goroutines encode, and the results channel how many results wait to be
received. Nothing limits the goroutines that wait for a slot, each with its segment: `Write` and
`submit` never wait. Contract: `not_heldBounded`, for every number of threads.
-/

namespace DbBackup.Pipeline.ChunkWriter

open Lib Relation

variable {threads : Int} {encode : Nat → Bytes → Except String Bytes}

/-- Whatever is written, no run ever holds more segments than the bound. -/
def HeldBounded (threads : Int) (encode : Nat → Bytes → Except String Bytes) : Prop :=
  ∃ bound, ∀ writes s, Reaches threads encode writes s → s.held ≤ bound

/-- A `Write` of a full segment hands it to a goroutine, whatever the others are doing. -/
theorem take_full {s : State} {p : Bytes} {rest : List Bytes} (empty : s.cur = [])
    (full : rsyncSegmentSize ≤ p.length) :
    (s.take p rest).client = .writing (p.drop rsyncSegmentSize :: rest) ∧
      (s.take p rest).cur = [] ∧ (s.take p rest).held = s.held + 1 := by
  have isFull : (s.cur ++ p.take (rsyncSegmentSize - s.cur.length)).length = rsyncSegmentSize := by
    rw [empty, List.nil_append, List.length_nil, Nat.sub_zero, List.length_take]
    exact Nat.min_eq_left full
  unfold State.take
  dsimp only
  rw [if_pos isFull]
  refine ⟨?_, rfl, ?_⟩
  · rw [empty, List.length_nil, Nat.sub_zero]
  · simp only [State.held, State.submit, List.length_append, List.length_singleton]
    omega

/-- The producer alone moves: every full segment of a `Write` adds one that is held. -/
theorem exists_held (n : Nat) {s : State} {p : Bytes} (calls : s.client = .writing [p])
    (empty : s.cur = []) (long : p.length = n * rsyncSegmentSize) :
    ∃ t, ReflTransGen (Step threads encode) s t ∧ t.held = s.held + n := by
  induction n generalizing s p with
  | zero => exact ⟨s, .refl, rfl⟩
  | succ n ih =>
    rw [Nat.succ_mul] at long
    have more : p ≠ [] := by
      rintro rfl
      have := rsyncSegmentSize_pos
      rw [List.length_nil] at long
      omega
    obtain ⟨client, cur, held⟩ := @take_full s p [] empty (by omega)
    obtain ⟨t, run, total⟩ := ih client cur (by rw [List.length_drop]; omega)
    exact ⟨t, .head (.take calls more) run, by omega⟩

/-- One `Write` of a segment more than the bound is enough. -/
theorem exists_held_above (threads : Int) (encode : Nat → Bytes → Except String Bytes)
    (bound : Nat) : ∃ writes s, Reaches threads encode writes s ∧ bound < s.held := by
  have long : (List.replicate ((bound + 1) * rsyncSegmentSize) (0 : UInt8)).length =
      (bound + 1) * rsyncSegmentSize := List.length_replicate ..
  obtain ⟨s, run, held⟩ := @exists_held threads encode (bound + 1) (newChunkWriter [_]) _
    rfl rfl long
  refine ⟨_, s, run, ?_⟩
  rw [held]
  omega

theorem not_heldBounded (threads : Int) (encode : Nat → Bytes → Except String Bytes) :
    ¬ HeldBounded threads encode := by
  rintro ⟨bound, bounded⟩
  obtain ⟨writes, s, run, above⟩ := exists_held_above threads encode bound
  exact absurd (bounded writes s run) (Nat.not_le_of_lt above)

theorem two_threads_hold_any_number : ¬ HeldBounded 2 fun _ seg => .ok seg := by
  rintro ⟨bound, bounded⟩
  obtain ⟨writes, s, run, above⟩ := exists_held_above 2 (fun _ seg => .ok seg) bound
  exact absurd (bounded writes s run) (Nat.not_le_of_lt above)

end DbBackup.Pipeline.ChunkWriter
