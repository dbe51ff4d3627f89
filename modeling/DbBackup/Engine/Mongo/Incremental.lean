import DbBackup.Engine.Mongo.Restore

/-!
Owns the MongoDB `IncrementalDump` of
`supported/database/engine/mongo/incremental.go` and its composition with
`Restore`: what a change stream dump brings back.

Contract: the dump writes each of the first 100 changes as a comment and an
insert or replace also as `db.C.insert(D)`. `Restore` knows no such statement,
so a change stream dump restores to the state it is applied to, and it is right
exactly for the streams that change nothing. A token that cannot be resumed is
dropped in favour of a stream that starts at the present: the error of the
first `Watch` lives in an inner scope only.

The stream is the list of changes after a token; `Decode` of a change into a
map does not fail. An update event carries no document, since the stream is
opened without `updateLookup`.
-/

set_option linter.all false

namespace DbBackup.Engine.Mongo

open Lib.GoString Lib.LineScan

inductive Change (Doc Id : Type) where
  | insert (coll : String) (doc : Doc)
  | replace (coll : String) (doc : Doc)
  | update (coll : String) (doc : Doc)
  | delete (coll : String) (id : Id)

namespace Change

variable {Doc Id : Type}

def coll : Change Doc Id → String
  | .insert coll _ => coll
  | .replace coll _ => coll
  | .update coll _ => coll
  | .delete coll _ => coll

def fullDocument : Change Doc Id → Option Doc
  | .insert _ doc => some doc
  | .replace _ doc => some doc
  | .update _ _ => none
  | .delete _ _ => none

def put [DecidableEq Id] (database : Database Doc Id) (coll : String) (id : Id)
    (after : Option Doc) : Database Doc Id :=
  Function.update database coll (Function.update (database coll) id after)

def apply [DecidableEq Id] (idOf : Doc → Id) (database : Database Doc Id) :
    Change Doc Id → Database Doc Id
  | .insert coll doc => put database coll (idOf doc) (some doc)
  | .replace coll doc => put database coll (idOf doc) (some doc)
  | .update coll doc => put database coll (idOf doc) (some doc)
  | .delete coll id => put database coll id none

end Change

structure StreamEnv (Doc Id Token : Type) where
  host : String
  port : Nat
  firstDB : String
  parseToken : String → Option Token
  resumeAfter : Token → Option (List (Change Doc Id))
  watch : Option (List (Change Doc Id))
  marshalEvent : Change Doc Id → String
  marshalEvent_oneLine : ∀ change, OneLine (marshalEvent change)

variable {Doc Id Token : Type}

/-- The stream after `since`, where there is one. -/
def resumed (source : StreamEnv Doc Id Token) (since : String) : Option (List (Change Doc Id)) :=
  if since = "" then none else (source.parseToken since).bind source.resumeAfter

/-- `cs` after both attempts. -/
def openStream (source : StreamEnv Doc Id Token) (since : String) :
    Option (List (Change Doc Id)) :=
  match resumed source since with
  | some changes => some changes
  | none => source.watch

def headerLines (source : StreamEnv Doc Id Token) : List String :=
  ["// MongoDB Change Stream dump",
    "// Host: " ++ source.host ++ ":" ++ toString source.port ++ "  DB: " ++ source.firstDB,
    "//", ""]

def insertLine (json : ExtJSON Doc) (coll : String) (doc : Doc) : String :=
  "db." ++ coll ++ ".insert(" ++ json.marshal doc ++ ")"

/-- The statement of a change, for those that get one. -/
def insertLines (json : ExtJSON Doc) (change : Change Doc Id) : List String :=
  match change.fullDocument with
  | some doc => if change.coll ≠ "" then [insertLine json change.coll doc] else []
  | none => []

def changeLines (json : ExtJSON Doc) (source : StreamEnv Doc Id Token)
    (change : Change Doc Id) : List String :=
  ("// " ++ source.marshalEvent change) :: insertLines json change

def dumpLines (json : ExtJSON Doc) (source : StreamEnv Doc Id Token)
    (changes : List (Change Doc Id)) : List String :=
  headerLines source ++ (changes.take 100).flatMap (changeLines json source)

def incrementalDump (json : ExtJSON Doc) (source : StreamEnv Doc Id Token) (since : String) :
    Except String String :=
  match openStream source since with
  | none => .error "change stream"
  | some changes => .ok (joinLines (dumpLines json source changes))

/-! ### The lines of a dump -/

/-- Names without a line break; MongoDB does not forbid one. -/
def OneLineNames (source : StreamEnv Doc Id Token) (changes : List (Change Doc Id)) : Prop :=
  OneLine source.host ∧ OneLine source.firstDB ∧ ∀ change ∈ changes, OneLine change.coll

/-- No line is taken for a statement of the dump form, or is too long to read. -/
def Restorable (json : ExtJSON Doc) (source : StreamEnv Doc Id Token)
    (changes : List (Change Doc Id)) : Prop :=
  (∀ line ∈ dumpLines json source changes, line.utf8ByteSize < mongoMaxLineBytes) ∧
    ∀ change ∈ changes.take 100, ∀ line ∈ insertLines json change,
      hasMarker (trimSpace line) = false

variable {line : String}

theorem isComment_header (source : StreamEnv Doc Id Token)
    (member : line ∈ headerLines source) : IsComment line := by
  simp only [headerLines, List.mem_cons, List.not_mem_nil, or_false] at member
  rcases member with rfl | rfl | rfl | rfl
  · exact isComment_append " MongoDB Change Stream dump"
  · have shape : "// Host: " ++ source.host ++ ":" ++ toString source.port ++ "  DB: " ++
        source.firstDB = "//" ++ (" Host: " ++ source.host ++ ":" ++ toString source.port ++
        "  DB: " ++ source.firstDB) := by simp [← String.append_assoc]
    rw [shape]
    exact isComment_append _
  · exact isComment_append ""
  · exact .inl (by decide)

theorem isComment_event (source : StreamEnv Doc Id Token) (change : Change Doc Id) :
    IsComment ("// " ++ source.marshalEvent change) := by
  have shape : "// " ++ source.marshalEvent change = "//" ++ (" " ++ source.marshalEvent change) := by
    simp [← String.append_assoc]
  rw [shape]
  exact isComment_append _

variable {json : ExtJSON Doc}

theorem insertLines_eq {change : Change Doc Id} (member : line ∈ insertLines json change) :
    ∃ doc, line = insertLine json change.coll doc := by
  unfold insertLines at member
  cases full : change.fullDocument with
  | none => simp [full] at member
  | some doc =>
    simp only [full] at member
    split at member
    · exact ⟨doc, List.mem_singleton.mp member⟩
    · exact absurd member List.not_mem_nil

theorem isDbLine_insertLine (json : ExtJSON Doc) (coll : String) (doc : Doc) :
    IsDbLine (insertLine json coll doc) := by
  unfold insertLine
  rw [String.append_assoc, String.append_assoc, String.append_assoc]
  exact isDbLine_append _

variable {source : StreamEnv Doc Id Token} {changes : List (Change Doc Id)}

theorem mem_dumpLines (member : line ∈ dumpLines json source changes) :
    IsComment line ∨ ∃ change ∈ changes.take 100, line ∈ insertLines json change := by
  rcases List.mem_append.mp member with header | body
  · exact .inl (isComment_header source header)
  · obtain ⟨change, inTake, written⟩ := List.mem_flatMap.mp body
    rcases List.mem_cons.mp written with isEvent | isInsert
    · exact .inl (isEvent ▸ isComment_event source change)
    · exact .inr ⟨change, inTake, isInsert⟩

/-- Every line of the dump is read back as it was written. -/
theorem textLines_dump (names : OneLineNames source changes) :
    textLines (joinLines (dumpLines json source changes)) = dumpLines json source changes := by
  apply textLines_joinLines
  have port : OneLine (toString source.port) := by
    intro newline
    have digits : (toString source.port).toList = Nat.toDigits 10 source.port := by
      simp [Nat.toString_eq_repr, Nat.toList_repr]
    rw [digits] at newline
    have isDigit := Nat.isDigit_of_mem_toDigits (by decide) (by decide) newline
    exact absurd isDigit (by decide)
  intro line member
  rcases List.mem_append.mp member with header | body
  · simp only [headerLines, List.mem_cons, List.not_mem_nil, or_false] at header
    rcases header with rfl | rfl | rfl | rfl
    · decide
    · exact (((((show OneLine "// Host: " by decide).append names.1).append
        (by decide)).append port).append (by decide)).append names.2.1
    · decide
    · decide
  · obtain ⟨change, inTake, written⟩ := List.mem_flatMap.mp body
    rcases List.mem_cons.mp written with isEvent | isInsert
    · rw [isEvent]
      exact (show OneLine "// " by decide).append (source.marshalEvent_oneLine change)
    · obtain ⟨doc, rfl⟩ := insertLines_eq isInsert
      have coll := names.2.2 change (List.mem_of_mem_take inTake)
      exact ((((show OneLine "db." by decide).append coll).append (by decide)).append
        (json.marshal_oneLine doc)).append (by decide)

/-! ### Restoring a dump -/

variable [DecidableEq Id]

def applyAll (idOf : Doc → Id) (changes : List (Change Doc Id)) (database : Database Doc Id) :
    Database Doc Id :=
  changes.foldl (Change.apply idOf) database

/-- Whatever it restores to, a dump restores to the state it was given. -/
theorem restore_dump_eq (env : RestoreEnv Doc Id)  (names : OneLineNames source changes)
    {database result : Database Doc Id}
    (done : restore env (joinLines (dumpLines env.json source changes)) database = .ok result) :
    result = database := by
  unfold restore at done
  rw [textLines_dump names] at done
  cases ran : restoreLines env { database := database } (dumpLines env.json source changes) with
  | error message =>
    rw [ran] at done
    exact absurd done (by simp [Except.map])
  | ok last =>
    rw [ran] at done
    rw [← Except.ok.inj done]
    refine restoreLines_database env _ ?_ ran
    intro line member
    rcases mem_dumpLines member with comment | ⟨change, _, written⟩
    · exact .inl comment
    · obtain ⟨doc, rfl⟩ := insertLines_eq written
      exact .inr (isDbLine_insertLine env.json change.coll doc)

theorem restore_dump_of_restorable (env : RestoreEnv Doc Id)  (names : OneLineNames source changes)
    (restorable : Restorable env.json source changes) (database : Database Doc Id) :
    restore env (joinLines (dumpLines env.json source changes)) database = .ok database := by
  unfold restore
  rw [textLines_dump names, restoreLines_of_unknown env _ rfl]
  · rfl
  · intro line member
    refine ⟨restorable.1 line member, ?_⟩
    rcases mem_dumpLines member with comment | ⟨change, inTake, written⟩
    · exact .inl comment
    · exact .inr (restorable.2 change inTake line written)

/-- The dump after a usable token restores to the state after all changes; an
unusable token makes the dump fail. -/
def CarriesEveryChange (env : RestoreEnv Doc Id) (source : StreamEnv Doc Id Token)
    (database : Database Doc Id) (since : String) : Prop :=
  match resumed source since with
  | some changes =>
    ∃ text, incrementalDump env.json source since = .ok text ∧
      restore env text database = .ok (applyAll env.idOf changes database)
  | none => ∃ message, incrementalDump env.json source since = .error message

/-- The stream changes nothing; where it cannot be resumed, no stream can be
opened at all. -/
def NothingToCarry (env : RestoreEnv Doc Id) (source : StreamEnv Doc Id Token)
    (database : Database Doc Id) (since : String) : Prop :=
  match resumed source since with
  | some changes => applyAll env.idOf changes database = database
  | none => source.watch = none

/-- **What a change stream dump carries.** Nothing: it is right only for streams
without an effect, and for these whenever `Restore` can read it. -/
theorem carriesEveryChange_iff (env : RestoreEnv Doc Id) (source : StreamEnv Doc Id Token)
    (database : Database Doc Id) (since : String)
    (names : ∀ changes, resumed source since = some changes → OneLineNames source changes) :
    (CarriesEveryChange env source database since → NothingToCarry env source database since) ∧
      ((∀ changes, resumed source since = some changes →
          Restorable env.json source changes) →
        NothingToCarry env source database since →
        CarriesEveryChange env source database since) := by
  unfold CarriesEveryChange NothingToCarry incrementalDump openStream
  cases stream : resumed source since with
  | none =>
    constructor
    · rintro ⟨message, failed⟩
      cases fallback : source.watch with
      | none => rfl
      | some changes => simp [fallback] at failed
    · intro _ noStream
      exact ⟨"change stream", by simp [noStream]⟩
  | some changes =>
    have oneLine := names changes stream
    constructor
    · rintro ⟨text, dumped, done⟩
      obtain rfl : joinLines (dumpLines env.json source changes) = text := by
        simpa using dumped
      exact restore_dump_eq env oneLine done
    · intro restorable noEffect
      refine ⟨_, rfl, ?_⟩
      rw [noEffect]
      exact restore_dump_of_restorable env oneLine (restorable changes rfl) database

/-! ### A small stream -/

/-- The document with `_id` 1 and nothing else. -/
def sampleText : String := "\x7b\"_id\":\x7b\"$numberInt\":\"1\"\x7d\x7d"

def sampleJSON : ExtJSON Unit where
  marshal _ := sampleText
  unmarshal text := if text = sampleText then some () else none
  unmarshalList _ := none
  fieldCount _ := 1
  stringField _ _ := ""
  marshal_oneLine _ := by decide
  unmarshal_object text doc parsed := by
    split at parsed
    · rename_i isSample
      rw [isSample]
      decide
    · exact absurd parsed (by simp)

def sampleEnv : RestoreEnv Unit Nat where
  json := sampleJSON
  idOf _ := 1
  runCommand _ _ := true

/-- A server whose stream after the token holds `changes`. -/
def sampleSource (changes : List (Change Unit Nat)) : StreamEnv Unit Nat Unit where
  host := "db"
  port := 27017
  firstDB := "app"
  parseToken text := if text = "\x7b\"_data\":\"82\"\x7d" then some () else none
  resumeAfter _ := some changes
  watch := some []
  marshalEvent _ := sampleText
  marshalEvent_oneLine _ := by decide

theorem resumed_sampleSource (changes : List (Change Unit Nat)) :
    resumed (sampleSource changes) "\x7b\"_data\":\"82\"\x7d" = some changes := by
  unfold resumed
  rw [if_neg (by decide +kernel)]
  simp only [sampleSource, ↓reduceIte, Option.bind_some]

/-- One inserted document is lost. -/
theorem insert_not_carried :
    ¬ CarriesEveryChange sampleEnv (sampleSource [.insert "users" ()]) (fun _ _ => none)
      "\x7b\"_data\":\"82\"\x7d" := by
  unfold CarriesEveryChange
  rw [resumed_sampleSource]
  rintro ⟨text, dumped, done⟩
  obtain rfl : joinLines (dumpLines sampleEnv.json (sampleSource [.insert "users" ()])
      [.insert "users" ()]) = text := by
    simpa [incrementalDump, openStream, resumed_sampleSource] using dumped
  have names : OneLineNames (sampleSource [.insert "users" ()]) [.insert "users" ()] :=
    ⟨by decide, by decide, by decide⟩
  have same := restore_dump_eq sampleEnv names done
  have document := congrFun (congrFun same "users") 1
  exact absurd document (by decide)

/-- An insert that is undone again is carried. -/
theorem carriesEveryChange_sample :
    CarriesEveryChange sampleEnv (sampleSource [.insert "users" (), .delete "users" 1])
      (fun _ _ => none) "\x7b\"_data\":\"82\"\x7d" := by
  refine (carriesEveryChange_iff sampleEnv _ _ _ ?_).2 ?_ ?_
  · intro changes stream
    obtain rfl := Option.some.inj ((resumed_sampleSource _).symm.trans stream)
    exact ⟨by decide, by decide, by decide⟩
  · intro changes stream
    obtain rfl := Option.some.inj ((resumed_sampleSource _).symm.trans stream)
    exact ⟨by decide, by decide⟩
  · unfold NothingToCarry
    rw [resumed_sampleSource]
    show applyAll sampleEnv.idOf [.insert "users" (), .delete "users" 1] (fun _ _ => none) = _
    funext coll id
    by_cases isColl : coll = "users"
    · by_cases isId : id = 1
      · subst isColl isId
        decide
      · simp [applyAll, Change.apply, Change.put, isColl, sampleEnv]
    · simp [applyAll, Change.apply, Change.put, isColl]

end DbBackup.Engine.Mongo
