import DbBackup.Lib.LineScan

/-!
Owns texts with a backslash escape: cutting at a separator that no backslash
stands before, and reading the escapes of the text format of COPY.

Contract: `cutAt` undoes a join of parts in which every separator is escaped.
-/

namespace DbBackup.Lib.Escaped

/-- The parts between unescaped separators; `cur` is the part being read. -/
def cutAt (sep : Char) (cur : List Char) : List Char → List (List Char)
  | [] => [cur]
  | '\\' :: c :: rest => cutAt sep (cur ++ ['\\', c]) rest
  | c :: rest => if c = sep then cur :: cutAt sep [] rest else cutAt sep (cur ++ [c]) rest

/-- No unescaped separator, and no escape left open at the end. -/
def Guarded (sep : Char) : List Char → Prop
  | [] => True
  | '\\' :: _ :: rest => Guarded sep rest
  | c :: rest => c ≠ '\\' ∧ c ≠ sep ∧ Guarded sep rest

/-- How far an escape has been read. -/
inductive Escape where
  | plain
  | slash
  | octal (value left : Nat)
  | hex (value : Option Nat) (left : Nat)
deriving DecidableEq

def isOctal (c : Char) : Bool := '0' ≤ c && c ≤ '7'

def hexValue (c : Char) : Option Nat :=
  if '0' ≤ c ∧ c ≤ '9' then some (c.toNat - '0'.toNat)
  else if 'a' ≤ c ∧ c ≤ 'f' then some (c.toNat - 'a'.toNat + 10)
  else if 'A' ≤ c ∧ c ≤ 'F' then some (c.toNat - 'A'.toNat + 10)
  else none

/-- The character after a backslash, where it is not a digit or an `x`. -/
def escapedChar (c : Char) : Char :=
  if c = 'b' then '\x08' else if c = 'f' then '\x0c' else if c = 'n' then '\n'
  else if c = 'r' then '\r' else if c = 't' then '\t' else if c = 'v' then '\x0b' else c

def octalValue (c : Char) : Nat := c.toNat - '0'.toNat

/-- What an unfinished escape stands for. -/
def Escape.finish : Escape → List Char
  | .plain => []
  | .slash => ['\\']
  | .octal value _ => [Char.ofNat (value % 256)]
  | .hex (some value) _ => [Char.ofNat value]
  | .hex none _ => ['x']

/-- A character outside an escape. -/
def Escape.restart (c : Char) : Escape × List Char :=
  if c = '\\' then (.slash, []) else (.plain, [c])

def Escape.next : Escape → Char → Escape × List Char
  | .plain, c => restart c
  | .slash, c =>
    if isOctal c then (.octal (octalValue c) 2, [])
    else if c = 'x' then (.hex none 2, [])
    else (.plain, [escapedChar c])
  | .octal value left, c =>
    if left ≠ 0 ∧ isOctal c then (.octal (8 * value + octalValue c) (left - 1), [])
    else ((restart c).1, (Escape.octal value left).finish ++ (restart c).2)
  | .hex value left, c =>
    match (if left = 0 then none else hexValue c) with
    | some digit => (.hex (some (16 * value.getD 0 + digit)) (left - 1), [])
    | none => ((restart c).1, (Escape.hex value left).finish ++ (restart c).2)

def unescape : Escape → List Char → List Char
  | state, [] => state.finish
  | state, c :: rest => (state.next c).2 ++ unescape (state.next c).1 rest

/-! ### Guarded parts -/

theorem Guarded.append {sep : Char} {first second : List Char} (firstGuarded : Guarded sep first)
    (secondGuarded : Guarded sep second) : Guarded sep (first ++ second) := by
  fun_induction Guarded sep first with
  | case1 => exact secondGuarded
  | case2 c rest ih => exact ih firstGuarded
  | case3 c rest notEscape ih =>
    obtain ⟨notSlash, notSep, tail⟩ := firstGuarded
    have guarded := ih tail
    rw [List.cons_append, Guarded]
    · exact ⟨notSlash, notSep, guarded⟩
    · intro _ _ isSlash
      exact absurd isSlash notSlash

variable {sep : Char}

theorem cutAt_guarded_append {line : List Char} (guarded : Guarded sep line)
    (notSlash : sep ≠ '\\') (cur rest : List Char) :
    cutAt sep cur (line ++ sep :: rest) = (cur ++ line) :: cutAt sep [] rest := by
  fun_induction Guarded sep line generalizing cur with
  | case1 =>
    rw [List.nil_append, cutAt, if_pos rfl, List.append_nil]
    intro _ _ isSlash
    exact absurd isSlash notSlash
  | case2 c line ih =>
    rw [List.cons_append, List.cons_append, cutAt, ih guarded]
    simp
  | case3 c line notEscape ih =>
    obtain ⟨charNotSlash, notSep, tail⟩ := guarded
    rw [List.cons_append, cutAt, if_neg notSep, ih tail]
    · simp
    · intro _ _ isSlash
      exact absurd isSlash charNotSlash

theorem cutAt_guarded {line : List Char} (guarded : Guarded sep line)
    (cur : List Char) : cutAt sep cur line = [cur ++ line] := by
  fun_induction Guarded sep line generalizing cur with
  | case1 => simp [cutAt]
  | case2 c line ih =>
    rw [cutAt, ih guarded]
    simp
  | case3 c line notEscape ih =>
    obtain ⟨charNotSlash, notSep, tail⟩ := guarded
    rw [cutAt, if_neg notSep, ih tail]
    · simp
    · intro _ _ isSlash
      exact absurd isSlash charNotSlash

/-- Cutting undoes a join. -/
theorem cutAt_intercalate (notSlash : sep ≠ '\\') {parts : List (List Char)}
    (guarded : ∀ part ∈ parts, Guarded sep part) (notEmpty : parts ≠ []) :
    cutAt sep [] ([sep].intercalate parts) = parts := by
  induction parts with
  | nil => exact absurd rfl notEmpty
  | cons part rest ih =>
    have head := guarded part List.mem_cons_self
    cases rest with
    | nil => simpa using cutAt_guarded head []
    | cons next others =>
      have tail := ih
        (List.forall_mem_cons.mp guarded).2 (by simp)
      rw [List.intercalate_cons_cons, List.append_assoc, List.singleton_append,
        cutAt_guarded_append head notSlash, tail, List.nil_append]

/-- Cutting undoes writing each part with a separator after it. -/
theorem cutAt_flatMap (notSlash : sep ≠ '\\') {parts : List (List Char)}
    (guarded : ∀ part ∈ parts, Guarded sep part) :
    cutAt sep [] (parts.flatMap fun part => part ++ [sep]) = parts ++ [[]] := by
  induction parts with
  | nil => rfl
  | cons part rest ih =>
    have tail := ih
      (List.forall_mem_cons.mp guarded).2
    rw [List.flatMap_cons, List.append_assoc, List.singleton_append,
      cutAt_guarded_append (guarded part List.mem_cons_self) notSlash, tail,
      List.nil_append, List.cons_append]

end DbBackup.Lib.Escaped
