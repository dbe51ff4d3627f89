import DbBackup.Lib.LineScan

/-!
Owns the MongoDB `Restore` of `internal/database/engine/mongo/ops.go`: a line
machine that knows four statements of the dump form (`createCollection`,
`createView`, `createIndexes`, and `insertMany` with one document a line up to
`]);`) and skips every other line in silence.

Documents are an abstract type; Extended JSON is a parameter with the two
properties the development relies on (`ExtJSON`), and so is the answer of the
server to a command. A database is the documents of its collections by id:
collection options, views and indexes hold no documents.
-/

set_option linter.all false

namespace DbBackup.Engine.Mongo

open Lib.GoString Lib.LineScan

structure ExtJSON (Doc : Type) where
  marshal : Doc → String
  unmarshal : String → Option Doc
  unmarshalList : String → Option (List Doc)
  fieldCount : Doc → Nat
  stringField : Doc → String → String
  marshal_oneLine : ∀ doc, OneLine (marshal doc)
  unmarshal_object : ∀ text doc, unmarshal text = some doc →
    (text.toList.dropWhile isSpace).head? = some '{'

abbrev Database (Doc Id : Type) := String → Id → Option Doc

inductive Command (Doc : Type) where
  | create (collection : String) (options : Doc)
  | createView (view viewOn : String) (spec : Doc)
  | createIndexes (collection : String) (specs : List Doc)

structure RestoreEnv (Doc Id : Type) where
  json : ExtJSON Doc
  idOf : Doc → Id
  runCommand : Database Doc Id → Command Doc → Bool

structure RestoreState (Doc Id : Type) where
  collection : String := ""
  inInsert : Bool := false
  docs : List Doc := []
  database : Database Doc Id

def mongoMaxLineBytes : Nat := 64 * 1024 * 1024

def mongoRestoreBatchSize : Nat := 1000

variable {Doc Id : Type}

/-! ### Statements of one line -/

/-- `rest[:idx]` and the text after the marker. -/
def cutAt (marker rest : String) : Option (String × String) :=
  (indexOf marker.toList rest.toList).map fun idx =>
    (String.ofList (rest.toList.take idx),
      String.ofList (rest.toList.drop (idx + marker.toList.length)))

/-- The common start of the three parsers; the payload keeps its `)`. -/
def parsePayload (statement marker line : String) : Except String (String × String) :=
  match cutAt marker (trimPrefix line "db.") with
  | none => .error ("bad " ++ statement ++ " line")
  | some (target, payload) =>
    if hasSuffix payload ")" then .ok (target, payload)
    else .error ("bad " ++ statement ++ " line")

def runCommand (env : RestoreEnv Doc Id) (database : Database Doc Id) (command : Command Doc) :
    Except String Unit :=
  if env.runCommand database command then .ok () else .error "command failed"

def createCollectionLine (env : RestoreEnv Doc Id) (database : Database Doc Id) (line : String) :
    Except String Unit := do
  let (collection, payload) ← parsePayload "createCollection" ".createCollection(" line
  match env.json.unmarshal (trimSuffix payload ")") with
  | none => .error "parse collection options"
  | some options =>
    if env.json.fieldCount options = 0 then .ok ()
    else runCommand env database (.create collection options)

def createViewLine (env : RestoreEnv Doc Id) (database : Database Doc Id) (line : String) :
    Except String Unit := do
  let (view, payload) ← parsePayload "createView" ".createView(" line
  match env.json.unmarshal (trimSuffix payload ")") with
  | none => .error "parse view"
  | some spec =>
    if env.json.stringField spec "viewOn" = "" then .error "bad createView line"
    else runCommand env database (.createView view (env.json.stringField spec "viewOn") spec)

def createIndexesLine (env : RestoreEnv Doc Id) (database : Database Doc Id) (line : String) :
    Except String Unit := do
  let (collection, payload) ← parsePayload "createIndexes" ".createIndexes([" line
  match env.json.unmarshalList ("[" ++ trimSuffix payload ")") with
  | none => .error "parse indexes"
  | some [] => .ok ()
  | some specs => runCommand env database (.createIndexes collection specs)

def extractCollection (line : String) : String :=
  match cutAt ".insertMany" (trimPrefix line "db.") with
  | none => "unknown"
  | some (collection, _) => collection

/-! ### Documents -/

/-- `none` is a line without a document. -/
def parseDocLine (json : ExtJSON Doc) (line : String) : Except String (Option Doc) :=
  let text := trimSpace (trimSuffix line ",")
  if text = "" then .ok none
  else
    match json.unmarshal text with
    | none => .error "parse doc"
    | some doc => .ok (some doc)

/-- A second document with one id is a duplicate key. -/
def insertOne [DecidableEq Id] (env : RestoreEnv Doc Id) (collection : String)
    (database : Database Doc Id) (doc : Doc) : Except String (Database Doc Id) :=
  if (database collection (env.idOf doc)).isSome then .error ("insert " ++ collection)
  else
    .ok (Function.update database collection
      (Function.update (database collection) (env.idOf doc) (some doc)))

def insertMany [DecidableEq Id] (env : RestoreEnv Doc Id) (collection : String) (docs : List Doc)
    (database : Database Doc Id) : Except String (Database Doc Id) :=
  docs.foldlM (insertOne env collection) database

/-! ### The line machine -/

variable [DecidableEq Id]

def closeInsert (env : RestoreEnv Doc Id) (state : RestoreState Doc Id) :
    Except String (RestoreState Doc Id) := do
  let database ← insertMany env state.collection state.docs state.database
  pure { state with inInsert := false, docs := [], database := database }

def addDoc (env : RestoreEnv Doc Id) (state : RestoreState Doc Id) (doc : Doc) :
    Except String (RestoreState Doc Id) :=
  let docs := state.docs ++ [doc]
  if mongoRestoreBatchSize ≤ docs.length then do
    let database ← insertMany env state.collection docs state.database
    pure { state with docs := [], database := database }
  else .ok { state with docs := docs }

def restoreLine (env : RestoreEnv Doc Id) (state : RestoreState Doc Id) (text : String) :
    Except String (RestoreState Doc Id) :=
  let line := trimSpace text
  if line = "" ∨ hasPrefix line "//" then .ok state
  else if hasPrefix line "db." && contains line ".createCollection(" then
    (createCollectionLine env state.database line).map fun _ => state
  else if hasPrefix line "db." && contains line ".createView(" then
    (createViewLine env state.database line).map fun _ => state
  else if hasPrefix line "db." && contains line ".createIndexes([" then
    (createIndexesLine env state.database line).map fun _ => state
  else if hasPrefix line "db." && contains line ".insertMany([" then
    .ok { state with collection := extractCollection line, inInsert := true, docs := [] }
  else if state.inInsert then
    if hasPrefix line "]);" then closeInsert env state
    else
      match parseDocLine env.json line with
      | .error message => .error message
      | .ok none => .ok state
      | .ok (some doc) => addDoc env state doc
  else .ok state

/-- `bufio.Scanner` gives up on a line that does not fit its buffer. -/
def restoreLines (env : RestoreEnv Doc Id) :
    RestoreState Doc Id → List String → Except String (RestoreState Doc Id)
  | state, [] => .ok state
  | state, line :: rest =>
    if mongoMaxLineBytes ≤ line.utf8ByteSize then .error "read dump: token too long"
    else
      match restoreLine env state line with
      | .error message => .error message
      | .ok next => restoreLines env next rest

def restore (env : RestoreEnv Doc Id) (text : String) (database : Database Doc Id) :
    Except String (Database Doc Id) :=
  (restoreLines env { database := database } (textLines text)).map RestoreState.database

/-! ### Lines outside the dump form -/

/-- The statements `Restore` knows. -/
def hasMarker (line : String) : Bool :=
  [".createCollection(", ".createView(", ".createIndexes([", ".insertMany(["].any (contains line)

def IsComment (text : String) : Prop :=
  trimSpace text = "" ∨ hasPrefix (trimSpace text) "//" = true

def IsDbLine (text : String) : Prop :=
  ∃ rest, trimSpace text = "db." ++ rest

variable (rest : String)

theorem isDbLine_append : IsDbLine ("db." ++ rest) :=
  trimSpace_append (by decide) rest

theorem isComment_append : IsComment ("//" ++ rest) := by
  obtain ⟨kept, trimmed⟩ := trimSpace_append (show Firm "//" by decide) rest
  right
  simp [trimmed, hasPrefix]

variable (env : RestoreEnv Doc Id) {text : String}

theorem restoreLine_of_isComment (state : RestoreState Doc Id)
    (comment : IsComment text) : restoreLine env state text = .ok state := by
  unfold restoreLine
  exact if_pos comment

theorem trimSuffix_comma_head :
    ∃ kept, trimSuffix ("db." ++ rest) "," = "d" ++ kept := by
  unfold trimSuffix
  split
  · refine ⟨String.ofList (("b." ++ rest).toList.take (rest.toList.length + 1)), ?_⟩
    apply String.toList_injective
    simp
  · exact ⟨"b." ++ rest, by rw [← String.append_assoc]; rfl⟩

/-- A statement is no document. -/
theorem parseDocLine_of_db (json : ExtJSON Doc) (rest : String) :
    parseDocLine json ("db." ++ rest) = .error "parse doc" := by
  obtain ⟨kept, cut⟩ := trimSuffix_comma_head rest
  obtain ⟨left, trimmed⟩ := trimSpace_append (show Firm "d" by decide) kept
  unfold parseDocLine
  rw [cut, trimmed]
  have notEmpty : "d" ++ left ≠ "" := by
    intro empty
    have letters := congrArg String.toList empty
    simp at letters
  rw [if_neg notEmpty]
  cases parsed : json.unmarshal ("d" ++ left) with
  | none => rfl
  | some doc =>
    have object := json.unmarshal_object _ _ parsed
    have plain : isSpace 'd' = false := by decide
    simp [plain] at object

/-- What follows a statement on its line never reaches the documents, whichever
of the four statements the line is taken for. -/
theorem restoreLine_database {state next : RestoreState Doc Id}
    (dbLine : IsDbLine text) (done : restoreLine env state text = .ok next) :
    next.database = state.database := by
  obtain ⟨rest, trimmed⟩ := dbLine
  have sameState : ∀ {result : Except String Unit},
      (result.map fun _ => state) = .ok next → next.database = state.database := by
    intro result mapped
    cases result with
    | error message => exact absurd mapped (by simp [Except.map])
    | ok _ => rw [← Except.ok.inj mapped]
  have notClosing : hasPrefix ("db." ++ rest) "]);" = false := by
    unfold hasPrefix
    rw [String.toList_append]
    rfl
  unfold restoreLine at done
  simp only [trimmed, parseDocLine_of_db env.json rest, notClosing] at done
  split at done
  · rw [← Except.ok.inj done]
  · split at done
    · exact sameState done
    · split at done
      · exact sameState done
      · split at done
        · exact sameState done
        · split at done
          · rw [← Except.ok.inj done]
          · split at done
            · exact absurd done (by simp)
            · rw [← Except.ok.inj done]

/-- A line the machine does not know is skipped. -/
theorem restoreLine_of_unknown {state : RestoreState Doc Id}  (outside : state.inInsert = false)
    (unknown : hasMarker (trimSpace text) = false) : restoreLine env state text = .ok state := by
  simp only [hasMarker, List.any_cons, List.any_nil, Bool.or_false, Bool.or_eq_false_iff] at unknown
  obtain ⟨noCollection, noView, noIndexes, noInsert⟩ := unknown
  unfold restoreLine
  simp [noCollection, noView, noIndexes, noInsert, outside]

/-- Restoring a text of comments and statements leaves the documents alone. -/
theorem restoreLines_database (lines : List String)
    (each : ∀ text ∈ lines, IsComment text ∨ IsDbLine text) {state last : RestoreState Doc Id}
    (done : restoreLines env state lines = .ok last) : last.database = state.database := by
  induction lines generalizing state with
  | nil => rw [← Except.ok.inj done]
  | cons text rest ih =>
    have restEach : ∀ other ∈ rest, IsComment other ∨ IsDbLine other := (List.forall_mem_cons.mp each).2
    unfold restoreLines at done
    split at done
    · exact absurd done (by simp)
    · split at done
      · exact absurd done (by simp)
      · rename_i next stepped
        rw [ih restEach done]
        rcases each text List.mem_cons_self with comment | dbLine
        · rw [restoreLine_of_isComment env state comment] at stepped
          rw [← Except.ok.inj stepped]
        · exact restoreLine_database env dbLine stepped

/-- Where no line is taken for a statement the restore also succeeds. -/
theorem restoreLines_of_unknown (lines : List String)
    {state : RestoreState Doc Id} (outside : state.inInsert = false)
    (each : ∀ text ∈ lines, text.utf8ByteSize < mongoMaxLineBytes ∧
      (IsComment text ∨ hasMarker (trimSpace text) = false)) :
    restoreLines env state lines = .ok state := by
  induction lines with
  | nil => rfl
  | cons text rest ih =>
    obtain ⟨fits, kind⟩ := each text List.mem_cons_self
    have skipped : restoreLine env state text = .ok state := by
      rcases kind with comment | unknown
      · exact restoreLine_of_isComment env state comment
      · exact restoreLine_of_unknown env outside unknown
    unfold restoreLines
    rw [if_neg (by omega), skipped]
    exact ih (List.forall_mem_cons.mp each).2

end DbBackup.Engine.Mongo
