import DbBackup.Engine.Mongo.Delivery

/-!
Owns the inserts of a restored dump: whether every document of it is inserted
once, in order and into its collection.

Contract: it is, for names without line breaks that hold none of the markers of
`Restore`, exactly if the collections up to the last one with documents have
lines that fit the buffer and names that do not begin with a marker short of
its dot (`InsertsLegible`). The dot of `db.` completes such a marker:
`db.createView(x.insertMany([` is taken for a view.

The server accepts every call; collections have no indexes but the one on `_id`.
-/

set_option linter.all false

namespace DbBackup.Engine.Mongo

open Lib.GoString Lib.LineScan

variable {Doc : Type}

def markers : List String := [".insertMany", ".createCollection(", ".createView(", ".createIndexes(["]

def PlainName (name : String) : Prop :=
  OneLine name ∧ ∀ marker ∈ markers, contains name marker = false

instance (name : String) : Decidable (PlainName name) :=
  inferInstanceAs (Decidable (_ ∧ _))

/-- A collection by its name and documents. -/
def unindexed (part : String × List Doc) : Collection Doc :=
  { name := part.1, docs := part.2 }

def documentsOf (name : String) (parts : List (String × List Doc)) : List Doc :=
  parts.flatMap fun part => if part.1 = name then part.2 else []

/-- The calls of a restore of the dump insert what the collections hold, under
any name, a batch at a time. -/
def InsertsOnce (json : ExtJSON Doc) (banner : Banner) (parts : List (String × List Doc)) : Prop :=
  (∀ name, insertedDocs name (restoreCalls json (dump json banner (parts.map unindexed))) =
      documentsOf name parts) ∧
    ∀ call ∈ restoreCalls json (dump json banner (parts.map unindexed)), call.sized

/-- The words a marker leaves once its dot is the dot of `db.`. -/
def statementWords : List String := ["createCollection(", "createView(", "createIndexes(["]

structure PartLegible (json : ExtJSON Doc) (part : String × List Doc) : Prop where
  comment : (commentLine part.1).utf8ByteSize < mongoMaxLineBytes
  begins : part.2 ≠ [] → ∀ word ∈ statementWords, hasPrefix part.1 word = false
  opening : part.2 ≠ [] → (insertManyLine part.1).utf8ByteSize < mongoMaxLineBytes
  docs : ∀ line ∈ docLines json part.2, line.utf8ByteSize < mongoMaxLineBytes

/-- The condition: each collection up to the last one with documents. -/
def InsertsLegible (json : ExtJSON Doc) (parts : List (String × List Doc)) : Prop :=
  ∀ before part after, parts = before ++ part :: after → (∃ other ∈ part :: after, other.2 ≠ []) →
    PartLegible json part

theorem PlainName.free {name : String} (plain : PlainName name) (docs : List Doc) :
    Free (unindexed (name, docs)) :=
  ⟨fun _ => plain.2 _ (by simp [markers]), fun some => absurd rfl some⟩

/-- A name without the markers is misread for how it begins. -/
theorem misread_insertManyLine {name : String} (plain : PlainName name) :
    misread (insertManyLine name) = false ↔ ∀ word ∈ statementWords, hasPrefix name word = false := by
  have line : "db." ++ name ++ "." ++ "insertMany([" = insertManyLine name := by
    rw [String.append_assoc]
    rfl
  have found {word : String} (noDot : '.' ∉ word.toList)
      (free : contains name ("." ++ word) = false)
      (notOwn : contains ("." ++ "insertMany([") ("." ++ word) = false) :
      contains (insertManyLine name) ("." ++ word) = hasPrefix name word := by
    rw [Bool.eq_iff_iff, ← line, contains_statement_iff noDot, free, notOwn]
    simp
  have isCollection : contains (insertManyLine name) ".createCollection(" =
      hasPrefix name "createCollection(" :=
    @found "createCollection(" (by decide) (plain.2 _ (by simp [markers])) (by decide)
  have isView : contains (insertManyLine name) ".createView(" = hasPrefix name "createView(" :=
    @found "createView(" (by decide) (plain.2 _ (by simp [markers])) (by decide)
  have isIndexes : contains (insertManyLine name) ".createIndexes([" =
      hasPrefix name "createIndexes([" :=
    @found "createIndexes([" (by decide) (plain.2 _ (by simp [markers])) (by decide)
  simp [misread, statementWords, isCollection, isView, isIndexes, and_assoc]

theorem readable_unindexed_iff (json : ExtJSON Doc) {part : String × List Doc}
    (plain : PlainName part.1) : Readable json (unindexed part) ↔ PartLegible json part := by
  constructor
  · intro readable
    refine ⟨readable.comment, fun some => ?_, fun some => (readable.inserts some).fits, ?_⟩
    · exact (misread_insertManyLine plain).mp (readable.inserts some).clear
    · by_cases none : part.2 = []
      · simp [none, docLines]
      · exact (readable.inserts none).docsFit
  · intro legible
    refine ⟨legible.comment, fun some => ?_, fun some => absurd rfl some⟩
    exact ⟨plain.2 _ (by simp [markers]), (misread_insertManyLine plain).mpr (legible.begins some),
      legible.opening some, legible.docs⟩

theorem hasContent_unindexed_iff (parts : List (String × List Doc)) :
    HasContent (parts.map unindexed) ↔ ∃ part ∈ parts, part.2 ≠ [] := by
  constructor
  · rintro ⟨col, member, content⟩
    obtain ⟨part, isPart, rfl⟩ := List.mem_map.mp member
    exact ⟨part, isPart, content.elim id fun some => absurd rfl some⟩
  · rintro ⟨part, isPart, some⟩
    exact ⟨unindexed part, List.mem_map_of_mem isPart, .inl some⟩

theorem legible_unindexed_iff (json : ExtJSON Doc) {parts : List (String × List Doc)}
    (plain : ∀ part ∈ parts, PlainName part.1) :
    Legible json (parts.map unindexed) ↔ InsertsLegible json parts := by
  constructor
  · rintro legible before part after rfl content
    have plainPart := plain part (List.mem_append_right _ List.mem_cons_self)
    rw [← readable_unindexed_iff json plainPart]
    refine legible (before.map unindexed) (unindexed part) (after.map unindexed) (by simp) ?_
    exact (hasContent_unindexed_iff (part :: after)).mpr content
  · intro legible before col after shape content
    obtain ⟨start, rest, rfl, rfl, isRest⟩ := List.map_eq_append_iff.mp shape
    obtain ⟨part, others, rfl, rfl, rfl⟩ := List.map_eq_cons_iff.mp isRest
    have plainPart := plain part (List.mem_append_right _ List.mem_cons_self)
    rw [readable_unindexed_iff json plainPart]
    exact legible start part others rfl ((hasContent_unindexed_iff (part :: others)).mp content)

theorem dumpedDocs_unindexed (name : String) (parts : List (String × List Doc)) :
    dumpedDocs name (parts.map unindexed) = documentsOf name parts :=
  List.flatMap_map ..

theorem dumpedSpecs_unindexed (name : String) (parts : List (String × List Doc)) :
    dumpedSpecs name (parts.map unindexed) = [] := by
  apply List.flatMap_eq_nil_iff.mpr
  intro col member
  obtain ⟨part, -, rfl⟩ := List.mem_map.mp member
  unfold Collection.specsFor
  split <;> rfl

section Plain

variable {parts : List (String × List Doc)}

theorem nameLines_of_plain (plain : ∀ part ∈ parts, PlainName part.1) :
    ∀ col ∈ parts.map unindexed, OneLine col.name := by
  intro col member
  obtain ⟨part, isPart, rfl⟩ := List.mem_map.mp member
  exact (plain part isPart).1

theorem free_of_plain (plain : ∀ part ∈ parts, PlainName part.1) :
    ∀ col ∈ parts.map unindexed, Free col := by
  intro col member
  obtain ⟨part, isPart, rfl⟩ := List.mem_map.mp member
  exact (plain part isPart).free part.2

theorem readBack_unindexed (json : ExtJSON Doc) (parts : List (String × List Doc)) :
    ∀ col ∈ parts.map unindexed, SpecsReadBack json col := by
  intro col member
  obtain ⟨part, -, rfl⟩ := List.mem_map.mp member
  exact fun some => absurd rfl some

theorem insertsLegible_of_insertsOnce (json : InvertibleJSON Doc) {banner : Banner}
    (plain : ∀ part ∈ parts, PlainName part.1)
    (once : InsertsOnce json.toExtJSON banner parts) : InsertsLegible json.toExtJSON parts := by
  have nameLines := nameLines_of_plain plain
  have readBack := readBack_unindexed json.toExtJSON parts
  rw [← legible_unindexed_iff json.toExtJSON plain,
    ← sameCounts_iff_legible json banner nameLines readBack]
  intro name
  constructor
  · rw [once.1 name, dumpedDocs_unindexed]
  · have bound := createdSpecs_le json {} readBack (free_of_plain plain) name
    rw [← restoreCalls_dump json.toExtJSON banner nameLines, dumpedSpecs_unindexed] at bound
    rw [dumpedSpecs_unindexed]
    exact Nat.le_zero.mp bound

theorem insertsOnce_of_insertsLegible (json : InvertibleJSON Doc) (banner : Banner)
    (plain : ∀ part ∈ parts, PlainName part.1)
    (legible : InsertsLegible json.toExtJSON parts) : InsertsOnce json.toExtJSON banner parts := by
  have nameLines := nameLines_of_plain plain
  have readBack := readBack_unindexed json.toExtJSON parts
  rw [← legible_unindexed_iff json.toExtJSON plain] at legible
  refine ⟨fun name => ?_, ?_⟩
  · rw [← dumpedDocs_unindexed]
    exact (delivers_dump json banner nameLines readBack legible name).1
  · rw [restoreCalls_dump json.toExtJSON banner nameLines]
    exact sized_collections json {} readBack (free_of_plain plain)

end Plain

/-- Every document is inserted once, in order and into its collection, exactly
if the collections up to the last one with documents are legible. -/
theorem insertsOnce_iff (json : InvertibleJSON Doc) (banner : Banner)
    (parts : List (String × List Doc)) (plain : ∀ part ∈ parts, PlainName part.1) :
    InsertsOnce json.toExtJSON banner parts ↔ InsertsLegible json.toExtJSON parts :=
  ⟨insertsLegible_of_insertsOnce json plain, insertsOnce_of_insertsLegible json banner plain⟩

/-- Extended JSON of the empty document. -/
def emptyMarshal : String := "\x7b\x7d"

theorem emptyMarshal_object (text : String) (doc : Unit)
    (parsed : (if text = emptyMarshal then some () else none) = some doc) :
    (text.toList.dropWhile isSpace).head? = some '\x7b' := by
  split at parsed
  · rename_i same
    rw [same]
    decide
  · exact absurd parsed (by simp)

def emptyJSON : InvertibleJSON Unit where
  marshal _ := emptyMarshal
  unmarshal text := if text = emptyMarshal then some () else none
  unmarshalList text := if text = "[]" then some [] else none
  fieldCount _ := 0
  stringField _ _ := ""
  marshal_oneLine _ := by decide
  unmarshal_object := emptyMarshal_object
  unmarshal_marshal _ := if_pos rfl
  marshal_begins _ := by decide
  marshal_ends _ := by decide

theorem insertsOnce_users :
    PlainName "users" ∧ (InsertsOnce emptyJSON.toExtJSON shopBanner [("users", [(), ()])] ↔
      InsertsLegible emptyJSON.toExtJSON [("users", [(), ()])]) :=
  ⟨by decide +kernel, insertsOnce_iff emptyJSON shopBanner [("users", [(), ()])]
    fun part member => by
      rw [List.mem_singleton.mp member]
      decide +kernel⟩

/-- The statement of a collection named `createView(x` ends the restore. -/
theorem createView_name_ends_restore :
    PlainName "createView(x" ∧
      ¬ InsertsOnce emptyJSON.toExtJSON shopBanner [("createView(x", [()])] := by
  have plain : PlainName "createView(x" := by decide +kernel
  refine ⟨plain, fun once => ?_⟩
  have eachPlain : ∀ part ∈ [("createView(x", [()])], PlainName part.1 := by
    intro part member
    rw [List.mem_singleton.mp member]
    exact plain
  have legible := insertsLegible_of_insertsOnce emptyJSON eachPlain once [] ("createView(x", [()]) []
    rfl ⟨_, List.mem_singleton_self _, List.cons_ne_nil _ _⟩
  have begins := legible.begins (List.cons_ne_nil _ _) "createView(" (by simp [statementWords])
  exact absurd begins (by decide +kernel)

end DbBackup.Engine.Mongo
