import DbBackup.Engine.Mssql
import DbBackup.Lib.Replaced

/-!
Owns the string literals of a batch as SQL Server reads it, and what `rewriteBatch`
of `internal/database/engine/mssql/ops.go` does to them.

The lexer knows literals, names in brackets and in double quotes, line comments
and nested block comments. A doubled quote closes a literal and opens it again.

Contract: `rewriteBatch` keeps the literals of a batch for every source and target
database exactly when the batch is `Shielded`: nothing that begins with `[` and
ends with `].` reaches into a literal.
-/

namespace DbBackup.Engine.Mssql

open Lib.GoString Lib.Replaced

/-! ### Lexing -/

inductive Mode where
  | code
  | dash
  | slash
  | literal
  | bracket
  | bracketEnd
  | quoted
  | line
  | block (depth : Nat)
  | blockStar (depth : Nat)
  | blockSlash (depth : Nat)
deriving DecidableEq

def codeNext (c : Char) : Mode :=
  if c = '\'' then .literal
  else if c = '[' then .bracket
  else if c = '"' then .quoted
  else if c = '-' then .dash
  else if c = '/' then .slash
  else .code

def Mode.next : Mode → Char → Mode
  | .code, c => codeNext c
  | .dash, c => if c = '-' then .line else codeNext c
  | .slash, c => if c = '*' then .block 0 else codeNext c
  | .literal, c => if c = '\'' then .code else .literal
  | .bracket, c => if c = ']' then .bracketEnd else .bracket
  | .bracketEnd, c => if c = ']' then .bracket else codeNext c
  | .quoted, c => if c = '"' then .code else .quoted
  | .line, c => if c = '\n' then .code else .line
  | .block depth, c =>
    if c = '*' then .blockStar depth else if c = '/' then .blockSlash depth else .block depth
  | .blockStar depth, c =>
    if c = '/' then (if depth = 0 then .code else .block (depth - 1))
    else if c = '*' then .blockStar depth else .block depth
  | .blockSlash depth, c =>
    if c = '*' then .block (depth + 1)
    else if c = '/' then .blockSlash depth else .block depth

def run (mode : Mode) (text : List Char) : Mode := text.foldl Mode.next mode

/-- Which characters belong to a string literal, its quotes included. -/
def mask : Mode → List Char → List Bool
  | _, [] => []
  | mode, c :: rest => (mode = .literal || mode.next c = .literal) :: mask (mode.next c) rest

variable (mode : Mode)

theorem run_append (first second : List Char) :
    run mode (first ++ second) = run (run mode first) second := List.foldl_append

theorem mask_append (first second : List Char) :
    mask mode (first ++ second) = mask mode first ++ mask (run mode first) second := by
  induction first generalizing mode with
  | nil => rfl
  | cons c first ih =>
    rw [List.cons_append, mask, mask, ih]
    rfl

@[simp] theorem length_mask (text : List Char) : (mask mode text).length = text.length := by
  induction text generalizing mode with
  | nil => rfl
  | cons c text ih => rw [mask, List.length_cons, ih]; rfl

/-! ### Rewriting -/

def marker (db : String) : List Char := '[' :: db.toList ++ [']', '.']

/-- What `rewriteBatch` does to each character. -/
def changes (batch sourceDB firstDB : String) : List Mark :=
  if sourceDB ≠ "" ∧ sourceDB ≠ firstDB then marks (marker sourceDB) 0 batch.toList
  else batch.toList.map fun _ => .kept

/-- No character inside a literal is replaced. -/
def LiteralsKept (batch sourceDB firstDB : String) : Prop :=
  ∀ index : Nat, (mask .code batch.toList)[index]? = some true →
    (changes batch sourceDB firstDB)[index]? = some Mark.kept

/-- No literal lies in what begins with `[` and ends with `].`. -/
def Shielded (batch : String) : Prop :=
  ∀ before inner after, batch.toList = before ++ ('[' :: inner ++ [']', '.']) ++ after →
    inner ≠ [] → ∀ index, before.length ≤ index → index < before.length + (inner.length + 3) →
      (mask .code batch.toList)[index]? ≠ some true

theorem length_marker (db : String) : (marker db).length = db.toList.length + 3 := by
  simp [marker]

theorem literalsKept_iff (batch : String) :
    (∀ sourceDB firstDB, LiteralsKept batch sourceDB firstDB) ↔ Shielded batch := by
  constructor
  · intro kept before inner after shape notEmpty index low high inLiteral
    -- The widest candidate begins at the first bracket, and nothing overlaps it.
    obtain ⟨start, tail, startShape, noBracket⟩ :
        ∃ start tail, before ++ ['['] = start ++ '[' :: tail ∧ '[' ∉ start :=
      List.eq_append_cons_of_mem (by simp)
    have whole : batch.toList = start ++ marker (String.ofList (tail ++ inner)) ++ after := by
      have opened : before ++ ('[' :: inner ++ [']', '.']) ++ after =
          (before ++ ['[']) ++ (inner ++ ([']', '.'] ++ after)) := by simp
      rw [shape, opened, startShape, marker, String.toList_ofList]
      simp
    have lengths := congrArg List.length startShape
    simp only [List.length_append, List.length_cons, List.length_nil] at lengths
    have replaced := kept (String.ofList (tail ++ inner)) (String.ofList (tail ++ inner) ++ "x") index
      inLiteral
    have different : ∀ name : String, name ≠ name ++ "x" := by
      intro name same
      have sameLength := congrArg (fun text : String => text.toList.length) same
      simp at sameLength
    unfold changes at replaced
    rw [if_pos ⟨by simp [notEmpty], different _⟩, whole] at replaced
    refine replaced_of_first noBracket (by omega) ?_ replaced
    show index < start.length + (marker (String.ofList (tail ++ inner))).length
    rw [length_marker, String.toList_ofList, List.length_append]
    omega
  · intro shielded sourceDB firstDB index inLiteral
    have inText : index < batch.toList.length := by
      have inMask := (List.getElem?_eq_some_iff.mp inLiteral).1
      rwa [length_mask] at inMask
    unfold changes
    split
    · rename_i rewritten
      cases marked : (marks (marker sourceDB) 0 batch.toList)[index]? with
      | none =>
        rw [List.getElem?_eq_none_iff, length_marks] at marked
        omega
      | some mark =>
        by_cases isKept : mark = .kept
        · rw [isKept]
        · rcases occurrence_of_not_kept (by simp [marker]) marked isKept with
            inside | ⟨before, after, shape, low, high⟩
          · exact absurd inside (Nat.not_lt_zero _)
          · rw [length_marker] at high
            have something : sourceDB.toList ≠ [] := fun empty =>
              rewritten.1 (String.toList_injective empty)
            exact absurd inLiteral
              (shielded before sourceDB.toList after shape something index low high)
    · rw [List.getElem?_map, List.getElem?_eq_getElem inText]
      rfl

end DbBackup.Engine.Mssql
