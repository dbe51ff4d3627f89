import DbBackup.Engine.Mongo.Restore

/-!
Owns the calls `Restore` of `internal/database/engine/mongo/ops.go` makes: the
line machine of `DbBackup.Engine.Mongo.Restore` without the server. A line
changes what the machine holds and asks for at most one call.

Contract: a restore against a database is the machine followed by its calls in
order (`restoreLine_eq`, `restoreLines_eq_ok_iff`). The calls of a text are
those of the lines before the first one the machine gives up on, for a server
that accepts every call.
-/

set_option linter.all false

namespace DbBackup.Engine.Mongo

open Lib.GoString Lib.LineScan

inductive Call (Doc : Type) where
  | insertMany (collection : String) (docs : List Doc)
  | runCommand (command : Command Doc)

/-- `collection`, `inInsert` and the documents of `docBatcher`. -/
structure ReadState (Doc : Type) where
  collection : String := ""
  inInsert : Bool := false
  docs : List Doc := []

variable {Doc Id : Type}

/-! ### One line -/

def collectionCommand (json : ExtJSON Doc) (line : String) :
    Except String (Option (Command Doc)) := do
  let (collection, payload) ← parsePayload "createCollection" ".createCollection(" line
  match json.unmarshal (trimSuffix payload ")") with
  | none => .error "parse collection options"
  | some options =>
    if json.fieldCount options = 0 then .ok none
    else .ok (some (.create collection options))

def viewCommand (json : ExtJSON Doc) (line : String) : Except String (Option (Command Doc)) := do
  let (view, payload) ← parsePayload "createView" ".createView(" line
  match json.unmarshal (trimSuffix payload ")") with
  | none => .error "parse view"
  | some spec =>
    if json.stringField spec "viewOn" = "" then .error "bad createView line"
    else .ok (some (.createView view (json.stringField spec "viewOn") spec))

def indexesCommand (json : ExtJSON Doc) (line : String) :
    Except String (Option (Command Doc)) := do
  let (collection, payload) ← parsePayload "createIndexes" ".createIndexes([" line
  match json.unmarshalList ("[" ++ trimSuffix payload ")") with
  | none => .error "parse indexes"
  | some [] => .ok none
  | some specs => .ok (some (.createIndexes collection specs))

/-- `insert`: no call without documents. -/
def insertCall (collection : String) (docs : List Doc) : Option (Call Doc) :=
  if docs.isEmpty then none else some (.insertMany collection docs)

/-- `batcher.add` and the insert of a full batch. -/
def addToBatch (state : ReadState Doc) (doc : Doc) : ReadState Doc × Option (Call Doc) :=
  let docs := state.docs ++ [doc]
  if mongoRestoreBatchSize ≤ docs.length then
    ({ state with docs := [] }, insertCall state.collection docs)
  else ({ state with docs := docs }, none)

def readLine (json : ExtJSON Doc) (state : ReadState Doc) (text : String) :
    Except String (ReadState Doc × Option (Call Doc)) :=
  let line := trimSpace text
  if line = "" ∨ hasPrefix line "//" then .ok (state, none)
  else if hasPrefix line "db." && contains line ".createCollection(" then
    (collectionCommand json line).map fun command => (state, command.map .runCommand)
  else if hasPrefix line "db." && contains line ".createView(" then
    (viewCommand json line).map fun command => (state, command.map .runCommand)
  else if hasPrefix line "db." && contains line ".createIndexes([" then
    (indexesCommand json line).map fun command => (state, command.map .runCommand)
  else if hasPrefix line "db." && contains line ".insertMany([" then
    .ok ({ collection := extractCollection line, inInsert := true, docs := [] }, none)
  else if state.inInsert then
    if hasPrefix line "]);" then
      .ok ({ state with inInsert := false, docs := [] }, insertCall state.collection state.docs)
    else
      match parseDocLine json line with
      | .error message => .error message
      | .ok none => .ok (state, none)
      | .ok (some doc) => .ok (addToBatch state doc)
  else .ok (state, none)

/-! ### A text -/

/-- The calls, and the state where no line ends the restore. -/
def readLines (json : ExtJSON Doc) :
    ReadState Doc → List String → List (Call Doc) × Option (ReadState Doc)
  | state, [] => ([], some state)
  | state, line :: rest =>
    if mongoMaxLineBytes ≤ line.utf8ByteSize then ([], none)
    else
      match readLine json state line with
      | .error _ => ([], none)
      | .ok (next, call) =>
        (call.toList ++ (readLines json next rest).1, (readLines json next rest).2)

def restoreCalls (json : ExtJSON Doc) (text : String) : List (Call Doc) :=
  (readLines json {} (textLines text)).1

variable {json : ExtJSON Doc}

theorem readLines_cons_of_ok {state next : ReadState Doc} {line : String}
    {call : Option (Call Doc)} (fits : line.utf8ByteSize < mongoMaxLineBytes)
    (done : readLine json state line = .ok (next, call)) (rest : List String) :
    readLines json state (line :: rest) =
      (call.toList ++ (readLines json next rest).1, (readLines json next rest).2) := by
  rw [readLines, if_neg (by omega), done]

theorem readLines_cons_of_error {state : ReadState Doc} {line message : String}
    (failed : readLine json state line = .error message) (rest : List String) :
    readLines json state (line :: rest) = ([], none) := by
  rw [readLines]
  split
  · rfl
  · rw [failed]

theorem readLines_cons_of_long (state : ReadState Doc) {line : String}
    (long : ¬ line.utf8ByteSize < mongoMaxLineBytes) (rest : List String) :
    readLines json state (line :: rest) = ([], none) := by
  rw [readLines, if_pos (by omega)]

theorem readLines_append_of_some {state next : ReadState Doc}
    {lines : List String} {calls : List (Call Doc)}
    (done : readLines json state lines = (calls, some next)) (rest : List String) :
    readLines json state (lines ++ rest) =
      (calls ++ (readLines json next rest).1, (readLines json next rest).2) := by
  induction lines generalizing state calls with
  | nil =>
    obtain ⟨rfl, same⟩ := Prod.mk.inj done
    rw [← Option.some.inj same]
    rfl
  | cons line others ih =>
    rw [readLines] at done
    split at done
    · exact absurd (Prod.mk.inj done).2 (by simp)
    · rename_i fits
      cases stepped : readLine json state line with
      | error message =>
        rw [stepped] at done
        exact absurd (Prod.mk.inj done).2 (by simp)
      | ok result =>
        obtain ⟨middle, call⟩ := result
        rw [stepped] at done
        obtain ⟨sameCalls, sameState⟩ := Prod.mk.inj done
        have rested := ih (Prod.ext (Eq.refl _) sameState)
        rw [List.cons_append, readLines_cons_of_ok (by omega) stepped, rested, ← sameCalls,
          List.append_assoc]

theorem readLines_append_of_none {state : ReadState Doc}
    {lines : List String} {calls : List (Call Doc)}
    (done : readLines json state lines = (calls, none)) (rest : List String) :
    readLines json state (lines ++ rest) = (calls, none) := by
  induction lines generalizing state calls with
  | nil => exact absurd (Prod.mk.inj done).2 (by simp)
  | cons line others ih =>
    rw [readLines] at done
    rw [List.cons_append, readLines]
    split at done
    · rename_i long
      rw [if_pos long, done]
    · rename_i fits
      rw [if_neg fits]
      cases stepped : readLine json state line with
      | error message =>
        rw [stepped] at done
        exact done
      | ok result =>
        obtain ⟨middle, call⟩ := result
        rw [stepped] at done
        obtain ⟨sameCalls, sameState⟩ := Prod.mk.inj done
        have rested := ih (Prod.ext (Eq.refl _) sameState)
        simp only [rested]
        rw [sameCalls]

/-! ### Against a database -/

def ReadState.on (state : ReadState Doc) (database : Database Doc Id) : RestoreState Doc Id :=
  { collection := state.collection, inInsert := state.inInsert, docs := state.docs,
    database := database }

def perform [DecidableEq Id] (env : RestoreEnv Doc Id) (database : Database Doc Id) :
    Call Doc → Except String (Database Doc Id)
  | .insertMany collection docs => insertMany env collection docs database
  | .runCommand command => (runCommand env database command).map fun _ => database

def performAll [DecidableEq Id] (env : RestoreEnv Doc Id) (calls : List (Call Doc)) (database : Database Doc Id) :
    Except String (Database Doc Id) :=
  calls.foldlM (perform env) database

/-- A statement is parsed first and, where it asks for something, then run. -/
def parsedCommand (env : RestoreEnv Doc Id) (database : Database Doc Id)
    (parsed : Except String (Option (Command Doc))) : Except String Unit :=
  parsed.bind fun command =>
    match command with
    | none => .ok ()
    | some command => runCommand env database command

variable (env : RestoreEnv Doc Id)

theorem createCollectionLine_eq (database : Database Doc Id)
    (line : String) : createCollectionLine env database line =
      parsedCommand env database (collectionCommand env.json line) := by
  unfold createCollectionLine collectionCommand parsedCommand
  cases parsePayload "createCollection" ".createCollection(" line with
  | error message => rfl
  | ok parts =>
    obtain ⟨collection, payload⟩ := parts
    simp only [bind, Except.bind]
    cases env.json.unmarshal (trimSuffix payload ")") with
    | none => rfl
    | some options => simp only []; split <;> rfl

theorem createViewLine_eq (database : Database Doc Id)
    (line : String) : createViewLine env database line =
      parsedCommand env database (viewCommand env.json line) := by
  unfold createViewLine viewCommand parsedCommand
  cases parsePayload "createView" ".createView(" line with
  | error message => rfl
  | ok parts =>
    obtain ⟨view, payload⟩ := parts
    simp only [bind, Except.bind]
    cases env.json.unmarshal (trimSuffix payload ")") with
    | none => rfl
    | some spec => simp only []; split <;> rfl

theorem createIndexesLine_eq (database : Database Doc Id)
    (line : String) : createIndexesLine env database line =
      parsedCommand env database (indexesCommand env.json line) := by
  unfold createIndexesLine indexesCommand parsedCommand
  cases parsePayload "createIndexes" ".createIndexes([" line with
  | error message => rfl
  | ok parts =>
    obtain ⟨collection, payload⟩ := parts
    simp only [bind, Except.bind]
    cases env.json.unmarshalList ("[" ++ trimSuffix payload ")") with
    | none => rfl
    | some specs => cases specs <;> rfl

variable [DecidableEq Id]

theorem performAll_nil (database : Database Doc Id) :
    performAll env [] database = .ok database := rfl

theorem performAll_singleton (call : Call Doc)
    (database : Database Doc Id) : performAll env [call] database = perform env database call := by
  cases done : perform env database call with
  | error message => simp [performAll, done, bind, Except.bind]
  | ok after => simp [performAll, done, bind, Except.bind, pure, Except.pure]

theorem performAll_append (first second : List (Call Doc)) (database : Database Doc Id) :
    performAll env (first ++ second) database =
      (performAll env first database).bind (performAll env second) := by
  unfold performAll
  rw [List.foldlM_append]
  rfl

/-- A line of the machine with its call carried out. -/
def afterLine (env : RestoreEnv Doc Id) (database : Database Doc Id)
    (result : Except String (ReadState Doc × Option (Call Doc))) :
    Except String (RestoreState Doc Id) :=
  result.bind fun step => (performAll env step.2.toList database).map step.1.on

theorem afterLine_command (database : Database Doc Id)
    (state : ReadState Doc) (parsed : Except String (Option (Command Doc))) :
    ((parsedCommand env database parsed).map fun _ => state.on database) =
      afterLine env database (parsed.map fun command => (state, command.map .runCommand)) := by
  cases parsed with
  | error message => rfl
  | ok command =>
    cases command with
    | none => rfl
    | some command =>
      simp only [parsedCommand, afterLine, Except.bind, Except.map, Option.map_some,
        Option.toList_some, performAll_singleton, perform]
      cases runCommand env database command <;> rfl

theorem afterLine_insert (database : Database Doc Id)
    (next : ReadState Doc) (collection : String) (docs : List Doc) :
    afterLine env database (.ok (next, insertCall collection docs)) =
      (insertMany env collection docs database).map next.on := by
  cases docs with
  | nil => rfl
  | cons doc rest =>
    simp [afterLine, insertCall, Except.bind, performAll_singleton, perform]

theorem addDoc_eq (database : Database Doc Id) (state : ReadState Doc) (doc : Doc) :
    addDoc env (state.on database) doc = afterLine env database (.ok (addToBatch state doc)) := by
  have sameDocs : (state.on database).docs = state.docs := rfl
  unfold addDoc addToBatch
  simp only [sameDocs]
  by_cases full : mongoRestoreBatchSize ≤ (state.docs ++ [doc]).length
  · rw [if_pos full, if_pos full, afterLine_insert]
    simp only [ReadState.on]
    cases insertMany env state.collection (state.docs ++ [doc]) database <;> rfl
  · rw [if_neg full, if_neg full]
    rfl

theorem closeInsert_eq (database : Database Doc Id) (state : ReadState Doc) :
    closeInsert env (state.on database) = afterLine env database
      (.ok ({ state with inInsert := false, docs := [] },
        insertCall state.collection state.docs)) := by
  rw [afterLine_insert]
  unfold closeInsert
  simp only [ReadState.on]
  cases insertMany env state.collection state.docs database <;> rfl

/-- The line machine of a restore is the machine without the server, with the
call of the line made on the database. -/
theorem restoreLine_eq (database : Database Doc Id) (state : ReadState Doc) (text : String) :
    restoreLine env (state.on database) text =
      afterLine env database (readLine env.json state text) := by
  unfold restoreLine readLine
  generalize trimSpace text = line
  simp only [createCollectionLine_eq, createViewLine_eq, createIndexesLine_eq]
  -- Both machines branch on the same tests of the line.
  by_cases comment : line = "" ∨ hasPrefix line "//" = true
  · rw [if_pos comment, if_pos comment]
    rfl
  rw [if_neg comment, if_neg comment]
  by_cases isCollection : (hasPrefix line "db." && contains line ".createCollection(") = true
  · rw [if_pos isCollection, if_pos isCollection]
    exact afterLine_command ..
  rw [if_neg isCollection, if_neg isCollection]
  by_cases isView : (hasPrefix line "db." && contains line ".createView(") = true
  · rw [if_pos isView, if_pos isView]
    exact afterLine_command ..
  rw [if_neg isView, if_neg isView]
  by_cases isIndexes : (hasPrefix line "db." && contains line ".createIndexes([") = true
  · rw [if_pos isIndexes, if_pos isIndexes]
    exact afterLine_command ..
  rw [if_neg isIndexes, if_neg isIndexes]
  by_cases isInsert : (hasPrefix line "db." && contains line ".insertMany([") = true
  · rw [if_pos isInsert, if_pos isInsert]
    rfl
  rw [if_neg isInsert, if_neg isInsert]
  by_cases inside : state.inInsert = true
  · rw [if_pos inside, if_pos (show (state.on database).inInsert = true from inside)]
    by_cases closes : hasPrefix line "]);" = true
    · rw [if_pos closes, if_pos closes]
      exact closeInsert_eq env database state
    · rw [if_neg closes, if_neg closes]
      generalize parseDocLine env.json line = parsed
      rcases parsed with message | _ | doc
      · rfl
      · rfl
      · exact addDoc_eq env database state doc
  · rw [if_neg inside, if_neg (show ¬ (state.on database).inInsert = true from inside)]
    rfl

/-- A whole restore is the machine on every line and then its calls in order. -/
theorem restoreLines_eq_ok_iff (database after : Database Doc Id)
    (state next : ReadState Doc) (lines : List String) :
    restoreLines env (state.on database) lines = .ok (next.on after) ↔
      (readLines env.json state lines).2 = some next ∧
        performAll env (readLines env.json state lines).1 database = .ok after := by
  induction lines generalizing state database with
  | nil =>
    rw [restoreLines, readLines]
    simp only [performAll_nil, Except.ok.injEq, Option.some.injEq]
    constructor
    · intro same
      obtain ⟨collections, inserts, docs, databases⟩ := RestoreState.mk.inj same
      cases state
      cases next
      simp_all
    · rintro ⟨rfl, rfl⟩
      rfl
  | cons line rest ih =>
    rw [restoreLines, readLines]
    by_cases long : mongoMaxLineBytes ≤ line.utf8ByteSize
    · simp [long]
    · rw [if_neg long, if_neg long, restoreLine_eq]
      cases stepped : readLine env.json state line with
      | error message => simp [afterLine, Except.bind]
      | ok result =>
        obtain ⟨middle, call⟩ := result
        simp only [afterLine, Except.bind, performAll_append]
        cases called : performAll env call.toList database with
        | error message => simp [Except.map]
        | ok changed =>
          simp only [Except.map]
          exact ih changed middle

end DbBackup.Engine.Mongo
