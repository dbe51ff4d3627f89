import Mathlib.Data.List.Basic

/-!
Owns the cutting of a list into chunks of a fixed size, the last one shorter, as
a loop does it that collects the current chunk and hands it on when it is full.

Contract: the chunks concatenate to the list, none is empty, none exceeds the
size, and the last one is full exactly when the size divides the length.
-/

namespace DbBackup.Lib.Chunks

variable {α : Type*}

/-- `cur` is the chunk being collected. -/
def chunks (size : Nat) (cur : List α) : List α → List (List α)
  | [] => if cur.isEmpty then [] else [cur]
  | x :: rest =>
    if size ≤ cur.length + 1 then (cur ++ [x]) :: chunks size [] rest
    else chunks size (cur ++ [x]) rest

theorem flatten_chunks (size : Nat) (cur xs : List α) :
    (chunks size cur xs).flatten = cur ++ xs := by
  induction xs generalizing cur with
  | nil =>
    cases cur with
    | nil => rfl
    | cons x rest => simp [chunks]
  | cons x rest ih =>
    rw [chunks]
    split
    · rw [List.flatten_cons, ih, List.nil_append, List.append_assoc]
      rfl
    · rw [ih, List.append_assoc]
      rfl

variable {size : Nat}

/-- A piece that leaves room in the current chunk is collected whole. -/
theorem chunks_append_part {cur piece rest : List α} (part : cur.length + piece.length < size) :
    chunks size cur (piece ++ rest) = chunks size (cur ++ piece) rest := by
  induction piece generalizing cur with
  | nil => rw [List.nil_append, List.append_nil]
  | cons x piece ih =>
    rw [List.length_cons] at part
    rw [List.cons_append, chunks, if_neg (by omega), ih (by simp; omega),
      List.append_assoc, List.singleton_append]

/-- A piece that is long enough fills the current chunk, which is handed on. -/
theorem chunks_append_full {cur piece rest : List α} (room : cur.length < size)
    (full : size ≤ cur.length + piece.length) :
    chunks size cur (piece ++ rest) = (cur ++ piece.take (size - cur.length)) ::
      chunks size [] (piece.drop (size - cur.length) ++ rest) := by
  induction piece generalizing cur with
  | nil =>
    rw [List.length_nil] at full
    omega
  | cons x piece ih =>
    rw [List.length_cons] at full
    obtain ⟨more, missing⟩ : ∃ more, size - cur.length = more + 1 :=
      ⟨size - cur.length - 1, by omega⟩
    rw [List.cons_append, chunks, missing, List.take_succ_cons, List.drop_succ_cons]
    by_cases last : size ≤ cur.length + 1
    · obtain rfl : more = 0 := by omega
      rw [if_pos last, List.take_zero, List.drop_zero]
    · have left : size - (cur ++ [x]).length = more := by
        rw [List.length_append, List.length_singleton]
        omega
      rw [if_neg last, ih (by simp; omega) (by simp; omega), left,
        List.append_assoc, List.singleton_append]

/-- The chunks are full ones and then, unless the size divides the length, one
that is shorter. -/
theorem chunks_eq {size : Nat} {cur xs : List α} (room : cur.length < size) :
    ∃ full last, chunks size cur xs = full ++ last ∧ (∀ chunk ∈ full, chunk.length = size) ∧
      (size ∣ cur.length + xs.length ∧ last = [] ∨
        ¬ size ∣ cur.length + xs.length ∧
          ∃ chunk, last = [chunk] ∧ chunk ≠ [] ∧ chunk.length < size) := by
  induction xs generalizing cur with
  | nil =>
    cases cur with
    | nil => exact ⟨[], [], rfl, by simp, .inl ⟨by simp, rfl⟩⟩
    | cons x rest =>
      have short : ¬ size ∣ (x :: rest).length := Nat.not_dvd_of_pos_of_lt (Nat.succ_pos _) room
      exact ⟨[], [x :: rest], rfl, by simp, .inr ⟨short, _, rfl, by simp, room⟩⟩
  | cons x rest ih =>
    by_cases full : size ≤ cur.length + 1
    · have positive : ([] : List α).length < size := Nat.lt_of_le_of_lt (Nat.zero_le _) room
      have filled : cur.length + 1 = size := Nat.le_antisymm room full
      have total : cur.length + (x :: rest).length = rest.length + size := by
        rw [List.length_cons]
        omega
      obtain ⟨before, last, split, beforeFull, ending⟩ := ih positive
      rw [List.length_nil, Nat.zero_add] at ending
      rw [chunks, if_pos full, split, total, Nat.dvd_add_left (Nat.dvd_refl size)]
      refine ⟨(cur ++ [x]) :: before, last, rfl, ?_, ending⟩
      intro chunk member
      rcases List.mem_cons.mp member with rfl | later
      · rw [List.length_append, List.length_singleton, filled]
      · exact beforeFull chunk later
    · have stillRoom : (cur ++ [x]).length < size := by
        rw [List.length_append, List.length_singleton]
        exact Nat.lt_of_not_le full
      have total : (cur ++ [x]).length + rest.length = cur.length + (x :: rest).length := by
        rw [List.length_append, List.length_singleton, List.length_cons]
        omega
      rw [chunks, if_neg full, ← total]
      exact ih stillRoom

theorem length_of_mem_chunks {cur xs chunk : List α} (room : cur.length < size)
    (member : chunk ∈ chunks size cur xs) : 1 ≤ chunk.length ∧ chunk.length ≤ size := by
  obtain ⟨full, last, split, allFull, ending⟩ := @chunks_eq α size cur xs room
  rw [split] at member
  rcases List.mem_append.mp member with inFull | inLast
  · rw [allFull chunk inFull]
    exact ⟨Nat.lt_of_le_of_lt (Nat.zero_le _) room, Nat.le_refl _⟩
  · rcases ending with ⟨-, rfl⟩ | ⟨-, short, rfl, notEmpty, isShort⟩
    · exact absurd inLast List.not_mem_nil
    · rw [List.mem_singleton.mp inLast]
      exact ⟨List.length_pos_iff.mpr notEmpty, Nat.le_of_lt isShort⟩

end DbBackup.Lib.Chunks
