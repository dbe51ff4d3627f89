import DbBackup.Lib.Follow
import DbBackup.Lib.GoString

/-!
Owns the references to secrets: `ResolveSecret` of `internal/config/secrets.go`.

The value of an environment variable is resolved again where it is a reference itself, so
the call follows a chain of references. The environment is a list of names and values, of
which the first value of a name counts.

Contract: the call returns exactly when the chain does not come back to itself
(`resolves_iff`). The warnings it writes are not modelled.
-/

namespace DbBackup.Config.Secrets

open Lib.GoString Lib.LinkGraph

abbrev Environment := List (String × String)

/-- `os.Getenv`: empty where the name is not set. -/
def getenv (env : Environment) (name : String) : String := (env.lookup name).getD ""

/-- What `os.Stat` and `os.ReadFile` answer: the size and the content, where there is no error. -/
structure SecretFile where
  statSize : Option Nat
  content : Option String

abbrev Files := String → SecretFile

def maxSecret : Nat := 64 * 1024

/-- A value that is looked up again. -/
def isReference (value : String) : Bool := hasPrefix value "file://" || hasPrefix value "env://"

/-- The branch of `file://`. -/
def fileSecret (files : Files) (val : String) : String :=
  let path := String.ofList (val.toList.drop 7)
  if path = "" then val
  else
    let file := files path
    if (file.statSize.any (maxSecret < ·)) = true then val
    else match file.content with
      | none => val
      | some content => if maxSecret < content.utf8ByteSize then val else trimSpace content

/-- The name after `env://`. -/
def envName (val : String) : String := String.ofList (val.toList.drop 6)

/-- `ResolveSecret`, up to the depth of the recursion. -/
def resolveSecret (env : Environment) (files : Files) : Nat → String → Option String
  | 0, _ => none
  | depth + 1, val =>
    if hasPrefix val "file://" then some (fileSecret files val)
    else if hasPrefix val "env://" then
      let key := envName val
      if key = "" then some val
      else
        let v := getenv env key
        if v = "" then some val
        else if isReference (trimSpace v) then resolveSecret env files depth (trimSpace v)
        else some (trimSpace v)
    else some val

/-- The call returns a string. -/
def Resolves (env : Environment) (files : Files) (val : String) : Prop :=
  ∃ depth secret, resolveSecret env files depth val = some secret

/-! ### The chain of references -/

/-- The value that is resolved next, where there is one. -/
def nextReference (env : Environment) (val : String) : Option String :=
  if hasPrefix val "file://" = false ∧ hasPrefix val "env://" = true ∧ envName val ≠ "" ∧
      isReference (trimSpace (getenv env (envName val))) = true then
    some (trimSpace (getenv env (envName val)))
  else none

theorem not_isReference_empty : isReference (trimSpace "") = false := by
  decide

/-- A call goes on with the next reference, or returns. -/
theorem resolveSecret_succ (env : Environment) (files : Files) (depth : Nat) (val : String) :
    (∀ next, nextReference env val = some next →
      resolveSecret env files (depth + 1) val = resolveSecret env files depth next) ∧
    (nextReference env val = none →
      ∃ secret, resolveSecret env files (depth + 1) val = some secret) := by
  rw [nextReference, resolveSecret]
  by_cases isFile : hasPrefix val "file://" = true
  · simp [isFile]
  · by_cases isEnv : hasPrefix val "env://" = true
    · by_cases noName : envName val = ""
      · simp [isFile, isEnv, noName]
      · by_cases unset : getenv env (envName val) = ""
        · simp [isFile, isEnv, noName, unset, not_isReference_empty]
        · by_cases again : isReference (trimSpace (getenv env (envName val))) = true
          · simp [isFile, isEnv, noName, unset, again]
          · simp [isFile, isEnv, noName, unset, again]
    · simp [isFile, isEnv]

theorem resolves_iff_ends (env : Environment) (files : Files) (val : String) :
    Resolves env files val ↔ Ends (nextReference env) val := by
  have same : ∀ depth start,
      (resolveSecret env files depth start).isSome = (follow (nextReference env) depth start).isSome := by
    intro depth
    induction depth with
    | zero => exact fun _ => rfl
    | succ depth ih =>
      intro start
      obtain ⟨onward, ended⟩ := resolveSecret_succ env files depth start
      rw [follow]
      cases link : nextReference env start with
      | none =>
        obtain ⟨secret, isSecret⟩ := ended link
        rw [isSecret]
        rfl
      | some next =>
        rw [onward next link]
        exact ih next
  constructor
  · rintro ⟨depth, secret, isSecret⟩
    have followed := same depth val
    rw [isSecret, Option.isSome_some] at followed
    obtain ⟨last, isLast⟩ := Option.isSome_iff_exists.mp followed.symm
    exact ⟨depth, last, isLast⟩
  · rintro ⟨depth, last, isLast⟩
    have resolved := same depth val
    rw [isLast, Option.isSome_some] at resolved
    obtain ⟨secret, isSecret⟩ := Option.isSome_iff_exists.mp resolved
    exact ⟨depth, secret, isSecret⟩

/-! ### Main results -/

/-- Only the references to set variables have a next one. -/
def referring (env : Environment) : Finset String :=
  (env.map fun entry => "env://" ++ entry.1).toFinset

theorem mem_of_getenv {env : Environment} {name : String} (isSet : getenv env name ≠ "") :
    ∃ value, (name, value) ∈ env := by
  rw [getenv] at isSet
  cases found : env.lookup name with
  | none =>
    rw [found] at isSet
    exact absurd rfl isSet
  | some value =>
    obtain ⟨front, back, rfl, -⟩ := List.lookup_eq_some_iff.mp found
    exact ⟨value, List.mem_append_right _ List.mem_cons_self⟩

theorem mem_referring {env : Environment} {val : String} (linked : nextReference env val ≠ none) :
    val ∈ referring env := by
  rw [nextReference] at linked
  split at linked
  · next held =>
      obtain ⟨-, isEnv, -, again⟩ := held
      obtain ⟨name, rfl⟩ := (hasPrefix_iff val "env://").mp isEnv
      have isName : envName ("env://" ++ name) = name := by
        have front : "env://".toList.length = 6 := by decide
        rw [envName, String.toList_append, List.drop_append_of_le_length (by rw [front]),
          ← front, List.drop_length, List.nil_append, String.ofList_toList]
      rw [isName] at again
      have isSet : getenv env name ≠ "" := by
        intro unset
        rw [unset, not_isReference_empty] at again
        exact Bool.noConfusion again
      obtain ⟨value, member⟩ := mem_of_getenv isSet
      exact List.mem_toFinset.mpr (List.mem_map.mpr ⟨(name, value), member, rfl⟩)
  · exact absurd rfl linked

/-- Resolving a secret ends exactly when its references do not go around in a cycle. -/
theorem resolves_iff (env : Environment) (files : Files) (val : String) :
    Resolves env files val ↔ ¬ MeetsCycle (nextReference env) val := by
  rw [resolves_iff_ends]
  exact ends_iff fun _ linked => mem_referring linked

def noFiles : Files := fun _ => ⟨none, none⟩

/-- A variable that refers to itself is resolved for ever. -/
theorem self_reference_never_resolves :
    ¬ Resolves [("TOKEN", "env://TOKEN")] noFiles "env://TOKEN" := by
  have itself : nextReference [("TOKEN", "env://TOKEN")] "env://TOKEN" = some "env://TOKEN" := by
    decide +kernel
  rw [resolves_iff_ends]
  rintro ⟨fuel, last, followed⟩
  exact not_meetsCycle_of_follow followed ⟨"env://TOKEN", .refl, .single itself⟩

end DbBackup.Config.Secrets
