import Mathlib.Data.List.Basic

/-!
Owns a reader that gives its bytes in pieces, and the loop that reads until a buffer is full
(`readFull`).

A read gives at most the next piece; what does not fit the buffer stays. A piece may be empty. A
reader that reports its end together with the last piece, and one that reports it on its own, are
the same here: the loop looks at the end only when bytes are missing.

Contract: `readFull_of_le` and `readFull_of_lt`, the result does not depend on the pieces.
-/

namespace DbBackup.Lib.ShortReads

variable {α : Type*}

inductive ReadError where
  | eof
  | unexpectedEOF
deriving DecidableEq

/-- What was read, what stays and the error, with the bytes read so far and the number of bytes
that are missing. -/
def readFull (got : List α) (missing : Nat) :
    List (List α) → List α × List (List α) × Option ReadError
  | [] =>
    (got, [],
      if missing = 0 then none else if got.isEmpty then some .eof else some .unexpectedEOF)
  | piece :: rest =>
    if missing = 0 then (got, piece :: rest, none)
    else if piece.length ≤ missing then readFull (got ++ piece) (missing - piece.length) rest
    else (got ++ piece.take missing, piece.drop missing :: rest, none)

/-- Enough bytes: the buffer is filled. -/
theorem readFull_of_le (got : List α) {missing : Nat} {pieces : List (List α)}
    (enough : missing ≤ pieces.flatten.length) :
    ∃ rest, readFull got missing pieces = (got ++ pieces.flatten.take missing, rest, none) ∧
      rest.flatten = pieces.flatten.drop missing := by
  induction pieces generalizing got missing with
  | nil =>
    obtain rfl : missing = 0 := Nat.le_zero.mp enough
    exact ⟨[], by simp [readFull], rfl⟩
  | cons piece rest ih =>
    rw [List.flatten_cons, List.length_append] at enough
    rw [readFull, List.flatten_cons]
    split
    next full =>
      subst full
      exact ⟨piece :: rest, by simp, by simp⟩
    next =>
      split
      next short =>
        obtain ⟨left, read, flatten⟩ :=
          @ih (got ++ piece) (missing - piece.length) (by omega)
        refine ⟨left, ?_, ?_⟩
        · rw [read, List.take_append, List.take_of_length_le short, List.append_assoc]
        · rw [flatten, List.drop_append, List.drop_of_length_le short, List.nil_append]
      next long =>
        refine ⟨piece.drop missing :: rest, ?_, ?_⟩
        · rw [List.take_append_of_le_length (by omega)]
        · rw [List.flatten_cons, List.drop_append_of_le_length (by omega)]

/-- Too few bytes: they are all read, and the error says whether there were any. -/
theorem readFull_of_lt (got : List α) {missing : Nat} {pieces : List (List α)}
    (tooFew : pieces.flatten.length < missing) :
    readFull got missing pieces =
      (got ++ pieces.flatten, [],
        some (if (got ++ pieces.flatten).isEmpty then .eof else .unexpectedEOF)) := by
  induction pieces generalizing got missing with
  | nil =>
    rw [List.flatten_nil, List.length_nil] at tooFew
    rw [readFull, if_neg (by omega), List.flatten_nil, List.append_nil]
    split <;> rfl
  | cons piece rest ih =>
    rw [List.flatten_cons, List.length_append] at tooFew
    rw [readFull, if_neg (by omega), if_pos (by omega), ih _ (by omega),
      List.flatten_cons, List.append_assoc]

end DbBackup.Lib.ShortReads
