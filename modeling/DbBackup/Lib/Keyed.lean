import Mathlib.Data.List.Forall2

/-!
Owns stores with one value for each key, changed by commands that each read and write one key and
can fail.

Contract: `runAll_eq_some_iff`. A list of commands succeeds on the store exactly when for every key
the commands on it succeed on what the key holds, and then each key holds what its own commands
made of it.
-/

namespace DbBackup.Lib.Keyed

variable {Cmd Key Held : Type*} [DecidableEq Key]
  (key : Cmd → Key) (apply : Cmd → Option Held → Option (Option Held))

def exec (store : Key → Option Held) (cmd : Cmd) : Option (Key → Option Held) :=
  (apply cmd (store (key cmd))).map (Function.update store (key cmd))

def runAll : List Cmd → (Key → Option Held) → Option (Key → Option Held)
  | [], store => some store
  | cmd :: rest, store => (exec key apply store cmd).bind (runAll rest)

/-- The commands on one key. -/
def runKey : List Cmd → Option Held → Option (Option Held)
  | [], held => some held
  | cmd :: rest, held => (apply cmd held).bind (runKey rest)

theorem runKey_append (first second : List Cmd) (held : Option Held) :
    runKey apply (first ++ second) held =
      (runKey apply first held).bind (runKey apply second) := by
  induction first generalizing held with
  | nil => rfl
  | cons cmd rest ih =>
    rw [List.cons_append, runKey, runKey, Option.bind_assoc]
    exact Option.bind_congr fun after _ => ih after

theorem runAll_eq_some_iff {cmds : List Cmd} {store after : Key → Option Held} :
    runAll key apply cmds store = some after ↔
      ∀ k, runKey apply (cmds.filter fun cmd => key cmd = k) (store k) = some (after k) := by
  induction cmds generalizing store with
  | nil =>
    simp only [runAll, List.filter_nil, runKey, Option.some.injEq]
    exact ⟨fun same k => congrFun same k, funext⟩
  | cons cmd rest ih =>
    rw [runAll, exec]
    cases result : apply cmd (store (key cmd)) with
    | none =>
      refine ⟨nofun, fun all => ?_⟩
      have own := all (key cmd)
      rw [List.filter_cons_of_pos (by simp), runKey, result] at own
      cases own
    | some held =>
      rw [Option.map_some, Option.bind_some, ih]
      refine forall_congr' fun k => ?_
      by_cases same : key cmd = k
      · subst same
        rw [List.filter_cons_of_pos (by simp), runKey, result, Option.bind_some,
          Function.update_self]
      · rw [List.filter_cons_of_neg (by simpa using same),
          Function.update_of_ne (Ne.symm same)]

end DbBackup.Lib.Keyed
