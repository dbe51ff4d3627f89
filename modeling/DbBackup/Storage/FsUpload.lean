import DbBackup.Lib.GoString
import DbBackup.Lib.SlashPath

/-!
Owns the upload of one backup to a directory: the temporary file beside the target, the copy, the
rename over the target and the cleanup that is deferred to the return.

Contract: `upload_allOrNothing`. Whatever the reader and the file system do, the target holds the
whole of a non-empty reader or what it held before, and no other file differs from before the call.

Does not own file modes and owners, which are set after the rename and change no content.
-/

set_option linter.all false

namespace DbBackup.Storage.FsUpload

open Lib
open Lib.GoString (filepathBase)

abbrev Bytes := List UInt8

/-- A file by its directory, in the spelling of `filepath.Dir`, and its name there. -/
structure Path where
  dir : List Char
  base : List Char
deriving DecidableEq

abbrev Files := Path → Option Bytes

structure Reader where
  chunks : List Bytes
  failure : Option String

def Reader.content (reader : Reader) : Bytes := reader.chunks.flatten

/-- What the context and the file system answer, call by call; `none` is no error. -/
structure World where
  ctxErr : Nat → Option String
  mkdirAll : Option String
  /-- The random text of each attempt at a temporary name, or why the attempt fails. -/
  attempts : Nat → Except String (List Char)
  /-- A failing write with the number of bytes it still stores. -/
  write : Nat → Option (Nat × String)
  close : Option String
  rename : Option String

/-! ### The operations of the upload -/

def filepathDir (path : List Char) : List Char :=
  SlashPath.clean (path.rdropWhile (· ≠ '/'))

def fullPath (basePath path : List Char) : Path :=
  let joined := SlashPath.join basePath path
  ⟨filepathDir joined, (filepathBase (String.ofList joined)).toList⟩

def tempName (base random : List Char) : List Char :=
  ".tmp-".toList ++ base ++ "-".toList ++ random ++ ".part".toList

/-- `os.CreateTemp`: an existing name is drawn again, up to 10000 times in all. -/
def createTemp (files : Files) (target : Path) (attempts : Nat → Except String (List Char)) :
    Nat → Nat → Except String Path
  | 0, _ => .error "file already exists"
  | left + 1, attempt =>
    if '/' ∈ target.base then .error "pattern contains path separator"
    else match attempts attempt with
      | .error err => .error err
      | .ok random =>
        let temp : Path := ⟨target.dir, tempName target.base random⟩
        if (files temp).isSome then createTemp files target attempts left (attempt + 1)
        else .ok temp

/-- `io.Copy` into the temporary file: what was written, and the error. -/
def copy (write : Nat → Option (Nat × String)) (failure : Option String) :
    Nat → Bytes → List Bytes → Bytes × Option String
  | _, written, [] => (written, failure)
  | index, written, chunk :: rest =>
    if chunk = [] then copy write failure index written rest
    else match write index with
      | none => copy write failure (index + 1) (written ++ chunk) rest
      | some (stored, err) => (written ++ chunk.take stored, some err)

structure Result where
  files : Files
  n : Nat
  error : Option String

def remove (files : Files) (path : Path) : Files := Function.update files path none

def rename (files : Files) (temp target : Path) : Files :=
  Function.update (Function.update files temp none) target (files temp)

/-- The deferred function: the temporary file goes unless it was cleaned. -/
def cleanUp (temp : Path) (cleaned : Bool) (result : Result) : Result :=
  if cleaned then result else { result with files := remove result.files temp }

def noData : String := "write to storage: no data written (dump failed before any output)"

/-- From the copy on; the flag is `cleaned` at the return. -/
def fill (world : World) (reader : Reader) (temp target : Path) (files : Files) : Bool × Result :=
  let copied := copy world.write reader.failure 0 [] reader.chunks
  let n := copied.1.length
  let filled := Function.update files temp (some copied.1)
  match copied.2 with
  | some err => (false, ⟨filled, n, some ("write to storage: " ++ err)⟩)
  | none => match world.close with
    | some err => (false, ⟨filled, n, some ("close temp: " ++ err)⟩)
    | none =>
      if n = 0 then
        let removed := remove filled temp
        match world.ctxErr 1, world.ctxErr 2 with
        | some err, _ => (true, ⟨removed, 0, some err⟩)
        | none, some err => (true, ⟨removed, 0, some err⟩)
        | none, none => (true, ⟨removed, 0, some noData⟩)
      else match world.rename with
        | some err => (true, ⟨remove filled temp, n, some ("rename: " ++ err)⟩)
        | none => (true, ⟨rename filled temp target, n, none⟩)

def upload (basePath : List Char) (world : World) (files : Files) (path : List Char)
    (reader : Reader) : Result :=
  let target := fullPath basePath path
  match world.ctxErr 0 with
  | some err => ⟨files, 0, some err⟩
  | none => match world.mkdirAll with
    | some err => ⟨files, 0, some ("mkdir: " ++ err)⟩
    | none => match createTemp files target world.attempts 10000 0 with
      | .error err => ⟨files, 0, some ("create temp: " ++ err)⟩
      | .ok temp =>
        let filled := fill world reader temp target (Function.update files temp (some []))
        cleanUp temp filled.1 filled.2

/-! ### The temporary file is new -/

theorem tempName_ne (base random : List Char) : tempName base random ≠ base := by
  intro same
  have lengths := congrArg List.length same
  unfold tempName at lengths
  have dash : 0 < "-".toList.length := by decide +kernel
  simp only [List.length_append] at lengths
  omega

theorem createTemp_spec {files : Files} {target temp : Path}
    {attempts : Nat → Except String (List Char)} {left attempt : Nat}
    (created : createTemp files target attempts left attempt = .ok temp) :
    files temp = none ∧ temp ≠ target := by
  induction left generalizing attempt with
  | zero => cases created
  | succ left ih =>
    rw [createTemp] at created
    split at created
    · cases created
    · split at created
      · cases created
      · rename_i random _
        dsimp only at created
        split at created
        · exact ih created
        · rename_i absent
          cases created
          refine ⟨by simpa using absent, ?_⟩
          intro same
          exact tempName_ne target.base random (congrArg Path.base same)

/-! ### The copy -/

theorem copy_complete {write : Nat → Option (Nat × String)} {failure : Option String}
    {index : Nat} {written : Bytes} {chunks : List Bytes}
    (complete : (copy write failure index written chunks).2 = none) :
    failure = none ∧ (copy write failure index written chunks).1 = written ++ chunks.flatten := by
  induction chunks generalizing index written with
  | nil => exact ⟨complete, by simp [copy]⟩
  | cons chunk rest ih =>
    rw [copy] at complete ⊢
    by_cases empty : chunk = []
    · rw [if_pos empty] at complete ⊢
      obtain ⟨ended, same⟩ := ih complete
      exact ⟨ended, by rw [same, empty, List.flatten_cons, List.nil_append]⟩
    · rw [if_neg empty] at complete ⊢
      cases wrote : write index with
      | some fault =>
        rw [wrote] at complete
        cases complete
      | none =>
        rw [wrote] at complete
        obtain ⟨ended, same⟩ := ih complete
        exact ⟨ended, by rw [same, List.flatten_cons, List.append_assoc]⟩

/-! ### All or nothing -/

/-- The target holds the whole reader or what it held; nothing else differs. -/
structure AllOrNothing (before : Files) (target : Path) (reader : Reader) (result : Result) :
    Prop where
  stored : result.error = none →
    result.files target = some reader.content ∧ reader.failure = none ∧
      reader.content ≠ [] ∧ result.n = reader.content.length
  kept : result.error ≠ none → result.files target = before target
  frame : ∀ other, other ≠ target → result.files other = before other

variable {before : Files}

theorem AllOrNothing.of_unchanged {target : Path} {reader : Reader}
    {result : Result} (failed : result.error ≠ none) (same : result.files = before) :
    AllOrNothing before target reader result where
  stored ok := absurd ok failed
  kept _ := by rw [same]
  frame _ _ := by rw [same]

theorem remove_update {temp : Path} (new : before temp = none)
    (content : Option Bytes) : remove (Function.update before temp content) temp = before := by
  rw [remove, Function.update_idem, ← new, Function.update_eq_self]

theorem fill_allOrNothing (world : World) (reader : Reader) {temp target : Path}
    (new : before temp = none) :
    let filled := fill world reader temp target (Function.update before temp (some []))
    AllOrNothing before target reader (cleanUp temp filled.1 filled.2) := by
  unfold fill
  dsimp only
  rw [Function.update_idem]
  cases copied : (copy world.write reader.failure 0 [] reader.chunks).2 with
  | some err => exact .of_unchanged (Option.some_ne_none _) (remove_update new _)
  | none =>
    obtain ⟨ended, content⟩ := copy_complete copied
    cases world.close with
    | some err => exact .of_unchanged (Option.some_ne_none _) (remove_update new _)
    | none =>
      by_cases empty : (copy world.write reader.failure 0 [] reader.chunks).1.length = 0
      · simp only [if_pos empty]
        cases world.ctxErr 1 <;> cases world.ctxErr 2 <;>
          exact .of_unchanged (Option.some_ne_none _) (remove_update new _)
      · simp only [if_neg empty]
        cases world.rename with
        | some err => exact .of_unchanged (Option.some_ne_none _) (remove_update new _)
        | none =>
          rw [List.nil_append] at content
          refine ⟨fun _ => ?_, fun failed => absurd rfl failed, ?_⟩
          · rw [content] at empty
            refine ⟨?_, ended, fun none => empty (by rw [← Reader.content, none]; rfl), ?_⟩
            · simp [cleanUp, rename, content, Reader.content]
            · simp [cleanUp, content, Reader.content]
          · intro other away
            simp only [cleanUp, rename, if_true, Function.update_of_ne away]
            by_cases same : other = temp
            · rw [same, Function.update_self, new]
            · rw [Function.update_of_ne same, Function.update_of_ne same]

theorem upload_allOrNothing (basePath : List Char) (world : World) (files : Files)
    (path : List Char) (reader : Reader) :
    let target := fullPath basePath path
    let result := upload basePath world files path reader
    AllOrNothing files target reader result ∧
      ∀ temp, createTemp files target world.attempts 10000 0 = .ok temp →
        result.files temp = none := by
  dsimp only
  have whole : AllOrNothing files (fullPath basePath path) reader
      (upload basePath world files path reader) := by
    unfold upload
    dsimp only
    cases world.ctxErr 0 with
    | some err => exact .of_unchanged (Option.some_ne_none _) rfl
    | none =>
      cases world.mkdirAll with
      | some err => exact .of_unchanged (Option.some_ne_none _) rfl
      | none =>
        cases created : createTemp files (fullPath basePath path) world.attempts 10000 0 with
        | error err => exact .of_unchanged (Option.some_ne_none _) rfl
        | ok temp =>
          exact fill_allOrNothing world reader (createTemp_spec created).1
  refine ⟨whole, ?_⟩
  intro temp created
  obtain ⟨new, apart⟩ := createTemp_spec created
  rw [whole.frame temp apart, new]

end DbBackup.Storage.FsUpload
