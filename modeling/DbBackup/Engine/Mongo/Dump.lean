import DbBackup.Engine.Mongo.Calls
import DbBackup.Lib.Marker

/-!
Owns the text `Dump` of `internal/database/engine/mongo/mongo.go` writes for one
database, with `dumpCollection` and `dumpIndexes`, and how the line machine of
`Restore` reads each kind of line of it.

A collection is what `dumpCollection` finds of it: its name, the documents in
natural order and the specifications of its indexes but the one on `_id`. Names
are free of line breaks. Collection options and views are not part of it.
-/

set_option linter.all false

namespace DbBackup.Engine.Mongo

open Lib.GoString Lib.LineScan Lib.Marker

/-- Extended JSON as a codec: an object on one line that reads back. -/
structure InvertibleJSON (Doc : Type) extends ExtJSON Doc where
  unmarshal_marshal : ∀ doc, unmarshal (marshal doc) = some doc
  marshal_begins : ∀ doc, (marshal doc).toList.head? = some '\x7b'
  marshal_ends : ∀ doc, (marshal doc).toList.getLast? = some '\x7d'

structure Collection (Doc : Type) where
  name : String
  docs : List Doc
  specs : List Doc := []

/-- The texts of the comments before the first collection. -/
structure BannerTexts where
  version : String
  dumped : String
  detail : String
  database : String

def BannerTexts.lines (texts : BannerTexts) : List String :=
  ["// db-backup | MongoDB | " ++ texts.version, "// Dumped: " ++ texts.dumped,
    "// " ++ texts.detail, "//", "", "", "// Database: " ++ texts.database, ""]

/-- Server, host and database names are short and on one line. -/
structure Banner extends BannerTexts where
  oneLine : ∀ line ∈ toBannerTexts.lines, OneLine line
  fits : ∀ line ∈ toBannerTexts.lines, line.utf8ByteSize < mongoMaxLineBytes

def shopTexts : BannerTexts :=
  { version := "https://nfrastack.com/db-backup | dev", dumped := "2024-05-01T00:00:00Z",
    detail := "Host: db  Server: 7.0.5", database := "shop" }

theorem shopTexts_oneLine : ∀ line ∈ shopTexts.lines, OneLine line := by
  decide +kernel

theorem shopTexts_fits : ∀ line ∈ shopTexts.lines, line.utf8ByteSize < mongoMaxLineBytes := by
  decide +kernel

def shopBanner : Banner :=
  { toBannerTexts := shopTexts, oneLine := shopTexts_oneLine, fits := shopTexts_fits }

variable {Doc : Type}

/-! ### The text -/

def dumpDocs (json : ExtJSON Doc) (col : String) : Nat → List Doc → String
  | docCount, [] => if docCount > 0 then "\n]);\n\n" else ""
  | docCount, doc :: rest =>
    (if docCount = 0 then "db." ++ col ++ ".insertMany([\n" else ",\n") ++
      ("  " ++ json.marshal doc) ++ dumpDocs json col (docCount + 1) rest

def dumpIndexes (json : ExtJSON Doc) (col : String) (specs : List Doc) : String :=
  if specs.isEmpty then ""
  else "db." ++ col ++ ".createIndexes([" ++ ", ".intercalate (specs.map json.marshal) ++ "])\n\n"

def dumpCollection (json : ExtJSON Doc) (col : Collection Doc) : String :=
  "// Collection: " ++ col.name ++ "\n" ++ dumpDocs json col.name 0 col.docs ++
    dumpIndexes json col.name col.specs

def dumpCollections (json : ExtJSON Doc) : List (Collection Doc) → String
  | [] => ""
  | col :: rest => dumpCollection json col ++ dumpCollections json rest

def dump (json : ExtJSON Doc) (banner : Banner) (collections : List (Collection Doc)) : String :=
  joinLines banner.lines ++ dumpCollections json collections

/-! ### Its lines -/

def commentLine (name : String) : String := "// Collection: " ++ name

def insertManyLine (name : String) : String := "db." ++ name ++ ".insertMany(["

def specsText (json : ExtJSON Doc) (specs : List Doc) : String :=
  ", ".intercalate (specs.map json.marshal)

def indexesLine (json : ExtJSON Doc) (name : String) (specs : List Doc) : String :=
  "db." ++ name ++ ".createIndexes([" ++ specsText json specs ++ "])"

/-- A comma after each document but the last. -/
def docLines (json : ExtJSON Doc) : List Doc → List String
  | [] => []
  | [doc] => ["  " ++ json.marshal doc]
  | doc :: next :: rest => ("  " ++ json.marshal doc ++ ",") :: docLines json (next :: rest)

def insertBlock (json : ExtJSON Doc) (col : Collection Doc) : List String :=
  if col.docs.isEmpty then []
  else insertManyLine col.name :: (docLines json col.docs ++ ["]);", ""])

def indexBlock (json : ExtJSON Doc) (col : Collection Doc) : List String :=
  if col.specs.isEmpty then [] else [indexesLine json col.name col.specs, ""]

def collectionLines (json : ExtJSON Doc) (col : Collection Doc) : List String :=
  commentLine col.name :: (insertBlock json col ++ indexBlock json col)

theorem joinLines_cons (line : String) (rest : List String) :
    joinLines (line :: rest) = line ++ "\n" ++ joinLines rest := by
  apply String.toList_injective
  simp [joinLines]

theorem joinLines_nil : joinLines [] = "" := rfl

variable (json : ExtJSON Doc)

theorem dumpDocs_eq (col : String) (count : Nat) (doc : Doc) (rest : List Doc) :
    "  " ++ json.marshal doc ++ dumpDocs json col (count + 1) rest =
      joinLines (docLines json (doc :: rest) ++ ["]);", ""]) := by
  induction rest generalizing doc count with
  | nil =>
    have closing : ("\n]);\n\n" : String) = "\n" ++ ("]);" ++ ("\n" ++ ("" ++ ("\n" ++ "")))) := by
      decide
    rw [docLines, List.singleton_append, joinLines_cons, joinLines_cons, joinLines_cons,
      joinLines_nil, dumpDocs, if_pos (Nat.succ_pos _), closing]
    simp only [String.append_assoc]
  | cons next rest ih =>
    have comma : (",\n" : String) = "," ++ "\n" := by decide
    rw [docLines, List.cons_append, joinLines_cons, ← ih (count + 1), dumpDocs,
      if_neg (Nat.succ_ne_zero _), comma]
    simp only [String.append_assoc]

theorem dumpDocs_zero (col : Collection Doc) :
    dumpDocs json col.name 0 col.docs = joinLines (insertBlock json col) := by
  unfold insertBlock
  cases col.docs with
  | nil => simp [dumpDocs, joinLines_nil]
  | cons doc rest =>
    have opening : (".insertMany([\n" : String) = ".insertMany([" ++ "\n" := by decide
    rw [dumpDocs, if_pos rfl, String.append_assoc, dumpDocs_eq, List.isEmpty_cons,
      if_neg (by simp), joinLines_cons, insertManyLine, opening]
    simp only [String.append_assoc]

theorem dumpIndexes_eq (col : Collection Doc) :
    dumpIndexes json col.name col.specs = joinLines (indexBlock json col) := by
  unfold dumpIndexes indexBlock
  split
  · exact joinLines_nil.symm
  · have closing : ("])\n\n" : String) = "])" ++ ("\n" ++ ("" ++ ("\n" ++ ""))) := by decide
    rw [joinLines_cons, joinLines_cons, joinLines_nil, indexesLine, specsText, closing]
    simp only [String.append_assoc]

theorem dumpCollection_eq (col : Collection Doc) :
    dumpCollection json col = joinLines (collectionLines json col) := by
  unfold dumpCollection collectionLines commentLine
  rw [dumpDocs_zero, dumpIndexes_eq, joinLines_cons, joinLines_append]
  simp only [String.append_assoc]

theorem dumpCollections_eq (collections : List (Collection Doc)) :
    dumpCollections json collections =
      joinLines (collections.flatMap (collectionLines json)) := by
  induction collections with
  | nil => rfl
  | cons col rest ih =>
    rw [dumpCollections, List.flatMap_cons, joinLines_append, ih,
      dumpCollection_eq]

theorem oneLine_docLines (docs : List Doc) : ∀ line ∈ docLines json docs, OneLine line := by
  induction docs with
  | nil => simp [docLines]
  | cons doc rest ih =>
    have written : OneLine ("  " ++ json.marshal doc) :=
      OneLine.append (by decide) (json.marshal_oneLine doc)
    cases rest with
    | nil => simpa [docLines] using written
    | cons next rest =>
      rw [docLines]
      intro line member
      rcases List.mem_cons.mp member with rfl | later
      · exact written.append (by decide)
      · exact ih line later

theorem oneLine_specsText (specs : List Doc) : OneLine (specsText json specs) := by
  unfold specsText
  induction specs with
  | nil => simp [OneLine]
  | cons spec rest ih =>
    cases rest with
    | nil => simpa using json.marshal_oneLine spec
    | cons next rest =>
      rw [List.map_cons, List.map_cons, String.intercalate_cons_cons]
      exact (OneLine.append (json.marshal_oneLine spec) (by decide)).append ih

theorem oneLine_collectionLines {col : Collection Doc}
    (nameLine : OneLine col.name) : ∀ line ∈ collectionLines json col, OneLine line := by
  have comment : OneLine (commentLine col.name) := OneLine.append (by decide) nameLine
  have opening : OneLine (insertManyLine col.name) :=
    (OneLine.append (by decide) nameLine).append (by decide)
  have indexes : OneLine (indexesLine json col.name col.specs) :=
    (((OneLine.append (by decide) nameLine).append (by decide)).append
      (oneLine_specsText json col.specs)).append (by decide)
  have inserted : ∀ line ∈ insertBlock json col, OneLine line := by
    unfold insertBlock
    split
    · simp
    · intro line member
      rcases List.mem_cons.mp member with rfl | later
      · exact opening
      · rcases List.mem_append.mp later with document | closing
        · exact oneLine_docLines json col.docs line document
        · simp only [List.mem_cons, List.not_mem_nil, or_false] at closing
          rcases closing with rfl | rfl <;> decide
  have created : ∀ line ∈ indexBlock json col, OneLine line := by
    unfold indexBlock
    split
    · simp
    · intro line member
      simp only [List.mem_cons, List.not_mem_nil, or_false] at member
      rcases member with rfl | rfl
      · exact indexes
      · decide
  intro line member
  rcases List.mem_cons.mp member with rfl | later
  · exact comment
  · rcases List.mem_append.mp later with isInserted | isCreated
    · exact inserted line isInserted
    · exact created line isCreated

/-- The lines `Restore` scans in the dump. -/
theorem textLines_dumpText (banner : Banner) {collections : List (Collection Doc)}
    (nameLines : ∀ col ∈ collections, OneLine col.name) :
    textLines (dump json banner collections) =
      banner.lines ++ collections.flatMap (collectionLines json) := by
  rw [dump, dumpCollections_eq, ← joinLines_append]
  apply textLines_joinLines
  intro line member
  rcases List.mem_append.mp member with inBanner | inCollections
  · exact banner.oneLine line inBanner
  · obtain ⟨col, isCol, inCol⟩ := List.mem_flatMap.mp inCollections
    exact oneLine_collectionLines json (nameLines col isCol) line inCol

/-! ### Comments, documents and the end of the documents -/

theorem readLine_of_isComment (state : ReadState Doc) {text : String}
    (comment : IsComment text) : readLine json state text = .ok (state, none) := by
  unfold readLine
  exact if_pos comment

theorem isComment_labelled (label rest : String) : IsComment ("//" ++ label ++ rest) := by
  rw [String.append_assoc]
  exact isComment_append _

theorem isComment_commentLine (name : String) : IsComment (commentLine name) :=
  isComment_labelled " Collection: " name

theorem isComment_empty : IsComment "" := .inl (by decide)

theorem isComment_banner (banner : Banner) : ∀ line ∈ banner.lines, IsComment line := by
  intro line member
  simp only [BannerTexts.lines, List.mem_cons, List.not_mem_nil, or_false] at member
  rcases member with rfl | rfl | rfl | rfl | rfl | rfl | rfl | rfl
  · exact isComment_labelled " db-backup | MongoDB | " _
  · exact isComment_labelled " Dumped: " _
  · exact isComment_labelled " " _
  · exact isComment_append ""
  · exact isComment_empty
  · exact isComment_empty
  · exact isComment_labelled " Database: " _
  · exact isComment_empty

/-- A text that begins with `c` begins with no word that begins otherwise. -/
theorem hasPrefix_eq_false {text start : String} {c d : Char}
    (begins : text.toList.head? = some c) (starts : start.toList.head? = some d)
    (different : c ≠ d) : hasPrefix text start = false := by
  rw [Bool.eq_false_iff, Ne, hasPrefix_iff]
  rintro ⟨rest, rfl⟩
  rw [String.toList_append, List.head?_append, starts, Option.some_or] at begins
  exact different (Option.some.inj begins).symm

theorem firm_marshal (json : InvertibleJSON Doc) (doc : Doc) : Firm (json.marshal doc) := by
  unfold Firm
  rw [json.marshal_begins, json.marshal_ends]
  decide

theorem parseDocLine_marshal (json : InvertibleJSON Doc) (doc : Doc) {ending : String}
    (separator : ending = "" ∨ ending = ",") :
    parseDocLine json.toExtJSON (json.marshal doc ++ ending) = .ok (some doc) := by
  have cut : trimSuffix (json.marshal doc ++ ending) "," = json.marshal doc := by
    rcases separator with rfl | rfl
    · rw [String.append_empty]
      apply trimSuffix_of_not_hasSuffix
      rw [Bool.eq_false_iff, Ne, hasSuffix_iff]
      rintro ⟨start, shape⟩
      have last := json.marshal_ends doc
      rw [shape, String.toList_append] at last
      simp at last
    · exact trimSuffix_append _ _
  have kept : trimSpace (json.marshal doc) = json.marshal doc :=
    trimSpace_of_firm (firm_marshal json doc)
  unfold parseDocLine
  simp only [cut, kept, if_neg (firm_marshal json doc).ne_empty, json.unmarshal_marshal]

theorem readLine_doc (json : InvertibleJSON Doc) {state : ReadState Doc} (doc : Doc)
    {ending : String} (inside : state.inInsert = true) (separator : ending = "" ∨ ending = ",") :
    readLine json.toExtJSON state ("  " ++ json.marshal doc ++ ending) =
      .ok (addToBatch state doc) := by
  have firm : Firm (json.marshal doc ++ ending) := by
    rcases separator with rfl | rfl
    · rw [String.append_empty]
      exact firm_marshal json doc
    · have joined := @Firm.append (json.marshal doc) "" "," (firm_marshal json doc) (by decide)
      rwa [String.append_empty] at joined
  have blanks : ∀ c ∈ "  ".toList, isSpace c = true := List.all_eq_true.mp (by decide)
  have trimmed : trimSpace ("  " ++ json.marshal doc ++ ending) = json.marshal doc ++ ending := by
    rw [String.append_assoc, trimSpace_blank_append blanks, trimSpace_of_firm firm]
  have begins : (json.marshal doc ++ ending).toList.head? = some '\x7b' := by
    rw [String.toList_append, List.head?_append, json.marshal_begins, Option.some_or]
  have noComment : hasPrefix (json.marshal doc ++ ending) "//" = false :=
    hasPrefix_eq_false begins rfl (by decide)
  have noStatement : hasPrefix (json.marshal doc ++ ending) "db." = false :=
    hasPrefix_eq_false begins rfl (by decide)
  have noClose : hasPrefix (json.marshal doc ++ ending) "]);" = false :=
    hasPrefix_eq_false begins rfl (by decide)
  unfold readLine
  simp only [trimmed, noComment, noStatement, noClose, firm.ne_empty, inside,
    parseDocLine_marshal json doc separator, Bool.false_and, Bool.false_eq_true, or_self, if_false,
    if_true]

theorem readLine_close {state : ReadState Doc} (inside : state.inInsert = true) :
    readLine json state "]);" = .ok ({ state with inInsert := false, docs := [] },
      insertCall state.collection state.docs) := by
  have trimmed : trimSpace "]);" = "]);" := by decide
  have noComment : ¬ ("]);" = "" ∨ hasPrefix "]);" "//" = true) := by decide
  have noStatement : hasPrefix "]);" "db." = false := by decide
  have closes : hasPrefix "]);" "]);" = true := by decide
  unfold readLine
  simp only [trimmed, if_neg noComment, noStatement, closes, inside, Bool.false_and,
    Bool.false_eq_true, if_false, if_true]

/-! ### Statements -/

/-- Where a marker can stand in a statement: the dot of `db.` begins one as well. -/
theorem contains_statement_iff {word : String} (noDot : '.' ∉ word.toList) (name tail : String) :
    contains ("db." ++ name ++ "." ++ tail) ("." ++ word) = true ↔
      hasPrefix name word = true ∨ contains name ("." ++ word) = true ∨
        contains ("." ++ tail) ("." ++ word) = true := by
  have marker : ("." ++ word).toList = '.' :: word.toList := by simp
  have line : ("db." ++ name ++ "." ++ tail).toList =
      ['d', 'b'] ++ '.' :: (name.toList ++ '.' :: tail.toList) := by simp
  have noMarker : ¬ '.' :: word.toList <:+: ['d', 'b'] := by
    intro piece
    have dot : '.' ∈ ['d', 'b'] := piece.subset List.mem_cons_self
    exact absurd dot (by decide)
  have dotTail : ("." ++ tail).toList = '.' :: tail.toList := by simp
  rw [contains_iff_piece, contains_iff_piece, contains_iff_piece, marker, line, dotTail,
    isPiece_append_cons_iff noDot, isPiece_cons_self_iff, begins_append_cons_iff noDot,
    isPiece_append_cons_iff noDot]
  unfold hasPrefix
  rw [List.isPrefixOf_iff_prefix]
  constructor
  · rintro (impossible | begins | inName | inTail)
    · exact absurd impossible noMarker
    · exact .inl begins
    · exact .inr (.inl inName)
    · exact .inr (.inr inTail)
  · exact .inr

variable {name : String}

theorem cutAt_append {word : String} (noDot : '.' ∉ word.toList)
    (free : contains name ("." ++ word) = false) (rest : String) :
    cutAt ("." ++ word) (name ++ ("." ++ word) ++ rest) = some (name, rest) := by
  have marker : ("." ++ word).toList = '.' :: word.toList := by simp
  have notInName : ¬ '.' :: word.toList <:+: name.toList := by
    rw [← marker, ← contains_iff_piece, free]
    exact Bool.false_ne_true
  unfold cutAt
  rw [String.toList_append, String.toList_append, marker, indexOf_append_marker noDot notInName]
  simp only [Option.map_some, Option.some.injEq, Prod.mk.injEq]
  constructor
  · rw [List.append_assoc, List.take_left', String.ofList_toList]
    rfl
  · rw [← List.length_append, List.drop_left', String.ofList_toList]
    rfl

/-- A name cut off before a marker does not hold it. -/
theorem cutAt_free {marker text name rest : String} (notEmpty : marker.toList ≠ [])
    (cut : cutAt marker text = some (name, rest)) : contains name marker = false := by
  obtain ⟨index, found, parts⟩ := Option.map_eq_some_iff.mp cut
  have isName : String.ofList (text.toList.take index) = name := (Prod.mk.inj parts).1
  rw [Bool.eq_false_iff, Ne, contains_iff_piece, ← isName, String.toList_ofList]
  exact indexOf_take notEmpty found

theorem cutAt_isSuffix {marker text name rest : String}
    (cut : cutAt marker text = some (name, rest)) : rest.toList <:+ text.toList := by
  obtain ⟨index, -, parts⟩ := Option.map_eq_some_iff.mp cut
  rw [← (Prod.mk.inj parts).2, String.toList_ofList]
  exact List.drop_suffix _ _

theorem trimPrefix_isSuffix (text start : String) :
    (trimPrefix text start).toList <:+ text.toList := by
  unfold trimPrefix
  split
  · rw [String.toList_ofList]
    exact List.drop_suffix _ _
  · exact List.suffix_refl _

variable {line : String}

/-- The three parsers ask for a closing bracket at the end of the line. -/
theorem parsePayload_error (notEnded : line.toList.getLast? ≠ some ')')
    (statement marker : String) : ∃ message, parsePayload statement marker line = .error message := by
  unfold parsePayload
  cases cut : cutAt marker (trimPrefix line "db.") with
  | none => exact ⟨_, rfl⟩
  | some parts =>
    obtain ⟨target, payload⟩ := parts
    have notClosed : hasSuffix payload ")" = false := by
      rw [Bool.eq_false_iff, Ne, hasSuffix_iff]
      rintro ⟨start, closed⟩
      have ending : [')'] <:+ payload.toList := ⟨start.toList, by rw [closed]; simp⟩
      have lineEnding : [')'] <:+ line.toList :=
        ending.trans ((cutAt_isSuffix cut).trans (trimPrefix_isSuffix line "db."))
      obtain ⟨before, whole⟩ := lineEnding
      apply notEnded
      rw [← whole, List.getLast?_append]
      rfl
    exact ⟨"bad " ++ statement ++ " line", by simp only [notClosed]; rfl⟩

/-- The markers of the statements that are looked for before `.insertMany([`. -/
def misread (line : String) : Bool :=
  contains line ".createCollection(" || contains line ".createView(" ||
    contains line ".createIndexes(["

theorem firm_insertManyLine (name : String) : Firm (insertManyLine name) :=
  Firm.append (by decide) (by decide)

theorem hasPrefix_db (name rest : String) : hasPrefix ("db." ++ name ++ rest) "db." = true := by
  rw [String.append_assoc]
  exact hasPrefix_append _ _

theorem not_comment_of_db (isDb : hasPrefix line "db." = true) :
    ¬ (line = "" ∨ hasPrefix line "//" = true) := by
  obtain ⟨rest, rfl⟩ := (hasPrefix_iff _ _).mp isDb
  have begins : ("db." ++ rest).toList.head? = some 'd' := by simp
  rintro (empty | comment)
  · rw [empty] at begins
    exact absurd begins (by simp)
  · rw [hasPrefix_eq_false begins rfl (by decide)] at comment
    exact Bool.false_ne_true comment

theorem readLine_insertMany (state : ReadState Doc)
    (clear : misread (insertManyLine name) = false) :
    readLine json state (insertManyLine name) = .ok
      ({ collection := extractCollection (insertManyLine name), inInsert := true, docs := [] },
        none) := by
  have isDb : hasPrefix (insertManyLine name) "db." = true := hasPrefix_db name _
  have isInsert : contains (insertManyLine name) ".insertMany([" = true := by
    have found := contains_append ("db." ++ name) ".insertMany([" ""
    rwa [String.append_empty] at found
  simp only [misread, Bool.or_eq_false_iff] at clear
  obtain ⟨⟨noCollection, noView⟩, noIndexes⟩ := clear
  unfold readLine
  rw [trimSpace_of_firm (firm_insertManyLine name)]
  simp only [if_neg (not_comment_of_db isDb), isDb, noCollection, noView, noIndexes, isInsert,
    Bool.and_false, Bool.and_true, Bool.false_eq_true, if_false, if_true]

theorem readLine_insertMany_error (state : ReadState Doc)
    (unclear : misread (insertManyLine name) = true) :
    ∃ message, readLine json state (insertManyLine name) = .error message := by
  have isDb : hasPrefix (insertManyLine name) "db." = true := hasPrefix_db name _
  have notClosed : (insertManyLine name).toList.getLast? ≠ some ')' := by
    have last : ".insertMany([".toList.getLast? = some '[' := by decide
    rw [insertManyLine, String.toList_append, List.getLast?_append, last, Option.some_or]
    decide
  have failing (statement marker : String) :=
    parsePayload_error notClosed statement marker
  unfold readLine
  rw [trimSpace_of_firm (firm_insertManyLine name)]
  simp only [if_neg (not_comment_of_db isDb), isDb, Bool.true_and]
  split
  · obtain ⟨message, failed⟩ := failing "createCollection" ".createCollection("
    exact ⟨message, by simp [collectionCommand, failed, bind, Except.bind, Except.map]⟩
  · rename_i noCollection
    split
    · obtain ⟨message, failed⟩ := failing "createView" ".createView("
      exact ⟨message, by simp [viewCommand, failed, bind, Except.bind, Except.map]⟩
    · rename_i noView
      split
      · obtain ⟨message, failed⟩ := failing "createIndexes" ".createIndexes(["
        exact ⟨message, by simp [indexesCommand, failed, bind, Except.bind, Except.map]⟩
      · rename_i noIndexes
        simp [misread, noCollection, noView, noIndexes] at unclear

theorem extractCollection_insertMany (free : contains name ".insertMany" = false) :
    extractCollection (insertManyLine name) = name := by
  have rest : trimPrefix (insertManyLine name) "db." = name ++ ("." ++ "insertMany") ++ "([" := by
    rw [insertManyLine, String.append_assoc, trimPrefix_append, String.append_assoc]
    rfl
  unfold extractCollection
  rw [rest, show ".insertMany" = "." ++ "insertMany" from rfl,
    cutAt_append (by decide) (by exact free)]

/-- The markers that are looked for before `.createIndexes([`, in the name and in the JSON. -/
def mistaken (line : String) : Bool :=
  contains line ".createCollection(" || contains line ".createView("

theorem firm_indexesLine (name : String) (specs : List Doc) :
    Firm (indexesLine json name specs) := by
  have shape : indexesLine json name specs =
      "db." ++ (name ++ ".createIndexes([" ++ specsText json specs) ++ "])" := by
    simp only [indexesLine, String.append_assoc]
  rw [shape]
  exact Firm.append (by decide) (by decide)

theorem hasPrefix_indexesLine (name : String) (specs : List Doc) :
    hasPrefix (indexesLine json name specs) "db." = true := by
  simp only [indexesLine, String.append_assoc]
  exact hasPrefix_append _ _

variable {specs : List Doc}

theorem indexesCommand_indexesLine
    (free : contains name ".createIndexes([" = false) (something : specs ≠ [])
    (readsBack : json.unmarshalList ("[" ++ specsText json specs ++ "]") = some specs) :
    indexesCommand json (indexesLine json name specs) =
      .ok (some (.createIndexes name specs)) := by
  have rest : trimPrefix (indexesLine json name specs) "db." =
      name ++ ("." ++ "createIndexes([") ++ (specsText json specs ++ "])") := by
    simp only [indexesLine, String.append_assoc, trimPrefix_append]
    rfl
  have closing : specsText json specs ++ "])" = specsText json specs ++ "]" ++ ")" := by
    rw [String.append_assoc]
    rfl
  have parsed : parsePayload "createIndexes" ".createIndexes([" (indexesLine json name specs) =
      .ok (name, specsText json specs ++ "])") := by
    unfold parsePayload
    rw [rest, show ".createIndexes([" = "." ++ "createIndexes([" from rfl,
      cutAt_append (by decide) (by exact free)]
    simp only [closing, hasSuffix_append, if_true]
  unfold indexesCommand
  rw [parsed]
  simp only [bind, Except.bind]
  rw [closing, trimSuffix_append, ← String.append_assoc, readsBack]
  cases specs with
  | nil => exact absurd rfl something
  | cons spec others => rfl

theorem readLine_indexes (state : ReadState Doc)
    (clear : mistaken (indexesLine json name specs) = false) :
    readLine json state (indexesLine json name specs) =
      (indexesCommand json (indexesLine json name specs)).map fun command =>
        (state, command.map .runCommand) := by
  have isDb := hasPrefix_indexesLine json name specs
  have isIndexes : contains (indexesLine json name specs) ".createIndexes([" = true := by
    rw [indexesLine, String.append_assoc]
    exact contains_append _ _ _
  simp only [mistaken, Bool.or_eq_false_iff] at clear
  obtain ⟨noCollection, noView⟩ := clear
  unfold readLine
  rw [trimSpace_of_firm (firm_indexesLine json name specs)]
  simp only [if_neg (not_comment_of_db isDb), isDb, noCollection, noView, isIndexes, Bool.and_false,
    Bool.and_true, Bool.false_eq_true, if_false, if_true]

/-- A call that neither inserts documents nor creates indexes. -/
def Call.idle : Call Doc → Prop
  | .insertMany _ _ => False
  | .runCommand (.create _ _) => True
  | .runCommand (.createView _ _ _) => True
  | .runCommand (.createIndexes _ _) => False

theorem collectionCommand_idle {json : ExtJSON Doc} {command : Option (Command Doc)}
    (parsed : collectionCommand json line = .ok command) :
    ∀ call ∈ command.map Call.runCommand, call.idle := by
  unfold collectionCommand at parsed
  cases payload : parsePayload "createCollection" ".createCollection(" line with
  | error message => simp [payload, bind, Except.bind] at parsed
  | ok parts =>
    simp only [payload, bind, Except.bind] at parsed
    split at parsed
    · exact absurd parsed (by simp)
    · split at parsed
      · simp [← Except.ok.inj parsed]
      · simp [← Except.ok.inj parsed, Call.idle]

theorem viewCommand_idle {json : ExtJSON Doc} {command : Option (Command Doc)}
    (parsed : viewCommand json line = .ok command) :
    ∀ call ∈ command.map Call.runCommand, call.idle := by
  unfold viewCommand at parsed
  cases payload : parsePayload "createView" ".createView(" line with
  | error message => simp [payload, bind, Except.bind] at parsed
  | ok parts =>
    simp only [payload, bind, Except.bind] at parsed
    split at parsed
    · exact absurd parsed (by simp)
    · split at parsed
      · exact absurd parsed (by simp)
      · simp [← Except.ok.inj parsed, Call.idle]

/-- An index statement taken for another one ends the restore or creates no index. -/
theorem readLine_indexes_mistaken (state : ReadState Doc)
    (unclear : mistaken (indexesLine json name specs) = true) :
    (∃ message, readLine json state (indexesLine json name specs) = .error message) ∨
      ∃ call, readLine json state (indexesLine json name specs) = .ok (state, call) ∧
        ∀ some ∈ call, some.idle := by
  have isDb := hasPrefix_indexesLine json name specs
  have asCommand {parsed : Except String (Option (Command Doc))}
      (idle : ∀ command, parsed = .ok command → ∀ call ∈ command.map Call.runCommand, call.idle) :
      (∃ message, (parsed.map fun command => (state, command.map Call.runCommand)) =
          .error message) ∨
        ∃ call, (parsed.map fun command => (state, command.map Call.runCommand)) =
          .ok (state, call) ∧ ∀ some ∈ call, some.idle := by
    cases parsed with
    | error message => exact .inl ⟨message, rfl⟩
    | ok command => exact .inr ⟨_, rfl, idle command rfl⟩
  unfold readLine
  rw [trimSpace_of_firm (firm_indexesLine json name specs)]
  simp only [if_neg (not_comment_of_db isDb), isDb, Bool.true_and]
  split
  · exact asCommand fun command parsed => collectionCommand_idle parsed
  · rename_i noCollection
    split
    · exact asCommand fun command parsed => viewCommand_idle parsed
    · rename_i noView
      simp [mistaken, noCollection, noView] at unclear

end DbBackup.Engine.Mongo
