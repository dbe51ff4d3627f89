import DbBackup.Engine.Mongo.Delivery
import DbBackup.Lib.OrderedJson

/-!
Owns the order of fields from a MongoDB database through `Dump` and `Restore` of
`internal/database/engine/mongo` to the database restored.

Contract: a document is decoded into a `bson.M` and written from it twice, once
for the dump and once for the insert, and so is an index specification. Each
time its fields come in any order, those of its inner documents and of the key
pattern included. Documents and key patterns come back in their order from
every run exactly if no order is open (`FewFields`) and the dump is legible in
whatever order it is written (`LegibleHowever`).

Extended JSON keeps the order of fields and reads back. The server keeps what it
is sent, with `_id` moved to the front of a document. Names are free of line
breaks; options and views are not part of it.
-/

set_option linter.all false

namespace DbBackup.Engine.Mongo

open Lib.FieldOrder Lib.GoString Lib.LineScan
open DbBackup.Lib.OrderedJson (ScalarCode getLast_print_document intercalate_inj oneLine_print print
  print_inj print_lead readBack readBack_text text_of_readBack)

abbrev Document (σ : Type) := List (String × Value σ)

/-- Extended JSON of documents and of lists of them. -/
structure OrderedJSON (σ : Type) extends InvertibleJSON (Document σ) where
  unmarshalList_marshal : ∀ specs : List (Document σ), specs ≠ [] →
    unmarshalList ("[" ++ specsText toExtJSON specs ++ "]") = some specs

/-- A server puts `_id` first and keeps the other fields as they come. -/
structure Server (σ : Type) where
  store : Document σ → Document σ
  store_id : ∀ before id after, (∀ field ∈ before, field.1 ≠ "_id") →
    store (before ++ ("_id", id) :: after) = ("_id", id) :: (before ++ after)

/-- A document of a collection. -/
structure StoredDoc (σ : Type) where
  id : Value σ
  rest : Document σ
  noId : ∀ field ∈ rest, field.1 ≠ "_id"

/-- An index as `listIndexes` describes it. -/
structure Index (σ : Type) where
  spec : Document σ
  pattern : Document σ
  distinct : (spec.map Prod.fst).Nodup
  hasKey : spec.lookup "key" = some (.document pattern)

structure StoredCollection (σ : Type) where
  name : String
  oneLine : OneLine name
  docs : List (StoredDoc σ)
  indexes : List (Index σ)

variable {σ : Type}

def StoredDoc.fields (doc : StoredDoc σ) : Document σ := ("_id", doc.id) :: doc.rest

/-- `spec["name"].(string) == "_id_"`: the server makes this index itself. -/
def Index.isPrimary (index : Index σ) : Bool :=
  match index.spec.lookup "name" with
  | some (.text name) => name == "_id_"
  | _ => false

/-- The specification without `ns` and `v`. -/
def Index.dumped (index : Index σ) : Document σ :=
  index.spec.filter fun field => !(field.1 == "ns" || field.1 == "v")

def StoredCollection.secondary (col : StoredCollection σ) : List (Index σ) :=
  col.indexes.filter fun index => !index.isPrimary

/-! ### Runs -/

def DocWritten (doc : StoredDoc σ) (written : Document σ) : Prop :=
  Remapped (.document doc.fields) (.document written)

def SpecWritten (index : Index σ) (written : Document σ) : Prop :=
  Remapped (.document index.dumped) (.document written)

/-- What `dumpCollection` may write of a collection. -/
structure Written (col : StoredCollection σ) (written : Collection (Document σ)) : Prop where
  name : written.name = col.name
  docs : List.Forall₂ DocWritten col.docs written.docs
  specs : List.Forall₂ SpecWritten col.secondary written.specs

/-- What `Restore` may send of a document it read. -/
def Sent (doc sent : Document σ) : Prop := Remapped (.document doc) (.document sent)

/-- The documents and key patterns of a restored database, by collection. -/
structure Outcome (σ : Type) where
  docs : String → List (Document σ)
  keyPatterns : String → List (Option (Value σ))

def Restores (json : ExtJSON (Document σ)) (server : Server σ) (banner : Banner)
    (database : List (StoredCollection σ)) (outcome : Outcome σ) : Prop :=
  ∃ written, List.Forall₂ Written database written ∧ ∀ name,
    (∃ sent, List.Forall₂ Sent
        (insertedDocs name (restoreCalls json (dump json banner written))) sent ∧
      outcome.docs name = sent.map server.store) ∧
    ∃ sent, List.Forall₂ Sent
        (createdSpecs name (restoreCalls json (dump json banner written))) sent ∧
      outcome.keyPatterns name = sent.map (List.lookup "key")

def docsUnder (name : String) (database : List (StoredCollection σ)) : List (StoredDoc σ) :=
  database.flatMap fun col => if col.name = name then col.docs else []

def indexesUnder (name : String) (database : List (StoredCollection σ)) : List (Index σ) :=
  database.flatMap fun col => if col.name = name then col.secondary else []

/-- Every run brings the documents and key patterns back in their order. -/
def KeepsOrder (json : ExtJSON (Document σ)) (server : Server σ) (banner : Banner)
    (database : List (StoredCollection σ)) : Prop :=
  ∀ outcome, Restores json server banner database outcome → ∀ name,
    outcome.docs name = (docsUnder name database).map StoredDoc.fields ∧
      outcome.keyPatterns name =
        (indexesUnder name database).map fun index => some (.document index.pattern)

/-- At most one field besides `_id` in a document, and at most one in a key
pattern and in any inner document. -/
def FewFields (database : List (StoredCollection σ)) : Prop :=
  ∀ col ∈ database, (∀ doc ∈ col.docs, Rigid doc.id ∧ Rigid (.document doc.rest)) ∧
    ∀ index ∈ col.secondary, Rigid (.document index.pattern)

def LegibleHowever (json : ExtJSON (Document σ)) (database : List (StoredCollection σ)) : Prop :=
  ∀ written, List.Forall₂ Written database written → Legible json written

/-! ### Documents and specifications of a run -/

variable {database : List (StoredCollection σ)} {written : List (Collection (Document σ))}

theorem forall₂_dumpedDocs (run : List.Forall₂ Written database written)
    (name : String) : List.Forall₂ DocWritten (docsUnder name database) (dumpedDocs name written) := by
  induction run with
  | nil => exact .nil
  | @cons col other _ _ first _ ih =>
    refine List.rel_append ?_ ih
    rw [Collection.docsFor, first.name]
    by_cases same : col.name = name
    · simp only [if_pos same]
      exact first.docs
    · simp only [if_neg same]
      exact .nil

theorem forall₂_dumpedSpecs (run : List.Forall₂ Written database written)
    (name : String) :
    List.Forall₂ SpecWritten (indexesUnder name database) (dumpedSpecs name written) := by
  induction run with
  | nil => exact .nil
  | @cons col other _ _ first _ ih =>
    refine List.rel_append ?_ ih
    rw [Collection.specsFor, first.name]
    by_cases same : col.name = name
    · simp only [if_pos same]
      exact first.specs
    · simp only [if_neg same]
      exact .nil

theorem names_of_run (run : List.Forall₂ Written database written) :
    ∀ col ∈ written, OneLine col.name := by
  induction run with
  | nil => simp
  | cons first _ ih =>
    intro col member
    rcases List.mem_cons.mp member with rfl | later
    · rw [first.name]
      exact StoredCollection.oneLine _
    · exact ih col later

variable (json : OrderedJSON σ)

theorem readBack_of_run (written : List (Collection (Document σ))) :
    ∀ col ∈ written, SpecsReadBack json.toExtJSON col := fun col _ some =>
  json.unmarshalList_marshal col.specs some

/-- A restore of a legible dump sends what was written of the documents. -/
theorem delivers_of_run (banner : Banner)
    (run : List.Forall₂ Written database written) (legible : Legible json.toExtJSON written) :
    Delivers (restoreCalls json.toExtJSON (dump json.toExtJSON banner written)) written :=
  delivers_dump json.toInvertibleJSON banner (names_of_run run) (readBack_of_run json written)
    legible

theorem distinct_dumped (index : Index σ) : (index.dumped.map Prod.fst).Nodup :=
  index.distinct.sublist (List.filter_sublist.map Prod.fst)

theorem lookup_dumped (index : Index σ) :
    index.dumped.lookup "key" = some (.document index.pattern) := by
  have member := (lookup_eq_some_iff index.distinct _ _).mp index.hasKey
  refine (lookup_eq_some_iff (distinct_dumped index) _ _).mpr (List.mem_filter.mpr ⟨member, ?_⟩)
  rfl

/-! ### Few fields are enough -/

variable {doc : StoredDoc σ}

theorem distinct_fields (rigid : Rigid (.document doc.rest)) : (doc.fields.map Prod.fst).Nodup := by
  rw [StoredDoc.fields, List.map_cons, List.nodup_cons]
  refine ⟨?_, ?_⟩
  · intro repeated
    obtain ⟨field, member, same⟩ := List.mem_map.mp repeated
    exact doc.noId field member same
  · cases shape : doc.rest with
    | nil => exact List.nodup_nil
    | cons first others =>
      rw [shape] at rigid
      cases rigid
      exact List.nodup_singleton _

variable {rest : Document σ}

theorem length_rest_le (rigid : Rigid (.document rest)) : rest.length ≤ 1 := by
  cases rigid with
  | empty => exact Nat.zero_le 1
  | single inner => exact Nat.le_refl 1

theorem rigid_of_mem_rest (rigid : Rigid (.document rest))
    {field : String × Value σ} (member : field ∈ rest) : Rigid field.2 := by
  cases rigid with
  | empty => exact absurd member List.not_mem_nil
  | single inner =>
    rw [List.mem_singleton.mp member]
    exact inner

/-- A document with one field besides `_id` has one order on the server. -/
theorem store_of_perm (server : Server σ) {sent : Document σ}
    (few : doc.rest.length ≤ 1) (order : sent.Perm doc.fields) : server.store sent = doc.fields := by
  have member : ("_id", doc.id) ∈ sent := order.mem_iff.mpr List.mem_cons_self
  obtain ⟨before, after, shape⟩ := List.append_of_mem member
  have others : (before ++ after).Perm doc.rest := by
    rw [shape] at order
    exact List.Perm.cons_inv (List.perm_middle.symm.trans order)
  have noId : ∀ field ∈ before, field.1 ≠ "_id" := fun field isField =>
    doc.noId field (others.mem_iff.mp (List.mem_append_left _ isField))
  have same : before ++ after = doc.rest := by
    match rest : doc.rest with
    | [] =>
      rw [rest] at others
      exact List.perm_nil.mp others
    | [only] =>
      rw [rest] at others
      exact List.perm_singleton.mp others
    | first :: second :: more =>
      rw [rest] at few
      simp at few
  rw [shape, server.store_id before doc.id after noId, same, StoredDoc.fields]

theorem store_of_run (server : Server σ) (rigidId : Rigid doc.id)
    (rigidRest : Rigid (.document doc.rest)) {written sent : Document σ}
    (isWritten : DocWritten doc written) (isSent : Sent written sent) :
    server.store sent = doc.fields := by
  have rigid : ∀ field ∈ doc.fields, Rigid field.2 := by
    intro field member
    rcases List.mem_cons.mp member with rfl | later
    · exact rigidId
    · exact rigid_of_mem_rest rigidRest later
  have first : written.Perm doc.fields :=
    perm_of_remapped (distinct_fields rigidRest) rigid isWritten
  have second : sent.Perm written :=
    perm_of_remapped (nodup_of_remapped isWritten)
      (fun field member => rigid field (first.mem_iff.mp member)) isSent
  exact store_of_perm server (length_rest_le rigidRest) (second.trans first)

theorem key_of_run {index : Index σ} (rigid : Rigid (.document index.pattern))
    {written sent : Document σ} (isWritten : SpecWritten index written)
    (isSent : Sent written sent) : sent.lookup "key" = some (.document index.pattern) := by
  obtain ⟨first, foundFirst, firstRemapped⟩ :=
    lookup_of_remapped (distinct_dumped index) isWritten (lookup_dumped index)
  obtain ⟨second, foundSecond, secondRemapped⟩ :=
    lookup_of_remapped (nodup_of_remapped isWritten) isSent foundFirst
  rw [rigid.eq firstRemapped] at secondRemapped
  rw [foundSecond, rigid.eq secondRemapped]

theorem map_eq_of_forall₂ {α β γ δ : Type} {first : α → β → Prop} {second : β → γ → Prop}
    {start : α → δ} {finish : γ → δ} {items : List α} {middle : List β} {others : List γ}
    (firstEach : List.Forall₂ first items middle) (secondEach : List.Forall₂ second middle others)
    (same : ∀ item ∈ items, ∀ between other, first item between → second between other →
      finish other = start item) : others.map finish = items.map start := by
  induction firstEach generalizing others with
  | nil =>
    cases secondEach
    rfl
  | cons firstRelated _ ih =>
    cases secondEach with
    | cons secondRelated rest =>
      rw [List.map_cons, List.map_cons,
        same _ List.mem_cons_self _ _ firstRelated secondRelated,
        ih rest (List.forall_mem_cons.mp same).2]

theorem mem_docsUnder {name : String}
    (member : doc ∈ docsUnder name database) : ∃ col ∈ database, doc ∈ col.docs := by
  obtain ⟨col, isCol, inCol⟩ := List.mem_flatMap.mp member
  split at inCol
  · exact ⟨col, isCol, inCol⟩
  · exact absurd inCol List.not_mem_nil

theorem mem_indexesUnder {name : String} {index : Index σ}
    (member : index ∈ indexesUnder name database) : ∃ col ∈ database, index ∈ col.secondary := by
  obtain ⟨col, isCol, inCol⟩ := List.mem_flatMap.mp member
  split at inCol
  · exact ⟨col, isCol, inCol⟩
  · exact absurd inCol List.not_mem_nil

theorem keepsOrder_of_fewFields (server : Server σ) (banner : Banner)  (few : FewFields database)
    (legible : LegibleHowever json.toExtJSON database) :
    KeepsOrder json.toExtJSON server banner database := by
  rintro outcome ⟨written, run, sends⟩ name
  obtain ⟨⟨sentDocs, isSentDocs, docs⟩, sentSpecs, isSentSpecs, keyPatterns⟩ := sends name
  obtain ⟨delivered, created⟩ := delivers_of_run json banner run (legible written run) name
  rw [delivered] at isSentDocs
  rw [created] at isSentSpecs
  rw [docs, keyPatterns]
  constructor
  · refine map_eq_of_forall₂ (forall₂_dumpedDocs run name) isSentDocs ?_
    intro doc member _ _ isWritten isSent
    obtain ⟨col, isCol, inCol⟩ := mem_docsUnder member
    obtain ⟨rigidId, rigidRest⟩ := (few col isCol).1 doc inCol
    exact store_of_run server rigidId rigidRest isWritten isSent
  · refine map_eq_of_forall₂ (forall₂_dumpedSpecs run name) isSentSpecs ?_
    intro index member _ _ isWritten isSent
    obtain ⟨col, isCol, inCol⟩ := mem_indexesUnder member
    exact key_of_run ((few col isCol).2 index inCol) isWritten isSent

/-! ### Few fields are needed -/

theorem exists_sent (docs : List (Document σ)) : ∃ sent, List.Forall₂ Sent docs sent :=
  forall₂_of_exists fun doc _ => exists_remapped_document doc

variable {server : Server σ} {banner : Banner}

/-- Where the order is kept nothing is lost, so every dump is legible. -/
theorem legible_of_keepsOrder (keeps : KeepsOrder json.toExtJSON server banner database) :
    LegibleHowever json.toExtJSON database := by
  intro written run
  choose sent isSent using (exists_sent : ∀ docs : List (Document σ), _)
  have kept := keeps
    { docs := fun name => (sent (insertedDocs name (restoreCalls json.toExtJSON
        (dump json.toExtJSON banner written)))).map server.store
      keyPatterns := fun name => (sent (createdSpecs name (restoreCalls json.toExtJSON
        (dump json.toExtJSON banner written)))).map (List.lookup "key") }
    ⟨written, run, fun name => ⟨⟨_, isSent _, rfl⟩, _, isSent _, rfl⟩⟩
  refine (sameCounts_iff_legible json.toInvertibleJSON banner (names_of_run run)
    (readBack_of_run json written)).mp fun name => ?_
  obtain ⟨docs, keyPatterns⟩ := kept name
  have docCounts := congrArg List.length docs
  have specCounts := congrArg List.length keyPatterns
  rw [List.length_map, List.length_map] at docCounts specCounts
  constructor
  · rw [(isSent _).length_eq, docCounts, (forall₂_dumpedDocs run name).length_eq]
  · rw [(isSent _).length_eq, specCounts, (forall₂_dumpedSpecs run name).length_eq]

/-- A collection written with a choice of order for each document and index. -/
def writeWith (writeDoc : StoredDoc σ → Document σ) (writeSpec : Index σ → Document σ)
    (col : StoredCollection σ) : Collection (Document σ) :=
  { name := col.name, docs := col.docs.map writeDoc, specs := col.secondary.map writeSpec }

theorem run_writeWith {writeDoc : StoredDoc σ → Document σ} {writeSpec : Index σ → Document σ}
    (docs : ∀ doc, DocWritten doc (writeDoc doc))
    (specs : ∀ index, SpecWritten index (writeSpec index)) (database : List (StoredCollection σ)) :
    List.Forall₂ Written database (database.map (writeWith writeDoc writeSpec)) := by
  rw [List.forall₂_map_right_iff, List.forall₂_same]
  intro col _
  refine ⟨rfl, ?_, ?_⟩
  · exact List.forall₂_map_right_iff.mpr (List.forall₂_same.mpr fun doc _ => docs doc)
  · exact List.forall₂_map_right_iff.mpr (List.forall₂_same.mpr fun index _ => specs index)

theorem dumpedDocs_writeWith (writeDoc : StoredDoc σ → Document σ)
    (writeSpec : Index σ → Document σ) (name : String) (database : List (StoredCollection σ)) :
    dumpedDocs name (database.map (writeWith writeDoc writeSpec)) =
      (docsUnder name database).map writeDoc := by
  unfold dumpedDocs docsUnder
  rw [List.flatMap_map, List.map_flatMap]
  congr 1
  funext col
  by_cases same : col.name = name
  · rw [if_pos same]
    exact if_pos same
  · rw [if_neg same]
    exact if_neg same

theorem dumpedSpecs_writeWith (writeDoc : StoredDoc σ → Document σ)
    (writeSpec : Index σ → Document σ) (name : String) (database : List (StoredCollection σ)) :
    dumpedSpecs name (database.map (writeWith writeDoc writeSpec)) =
      (indexesUnder name database).map writeSpec := by
  unfold dumpedSpecs indexesUnder
  rw [List.flatMap_map, List.map_flatMap]
  congr 1
  funext col
  by_cases same : col.name = name
  · rw [if_pos same]
    exact if_pos same
  · rw [if_neg same]
    exact if_neg same

/-- Where the order is kept, any choice of order comes back as the database has it. -/
theorem stored_of_keepsOrder (keeps : KeepsOrder json.toExtJSON server banner database)
    {writeDoc : StoredDoc σ → Document σ} {writeSpec : Index σ → Document σ}
    (docs : ∀ doc, DocWritten doc (writeDoc doc))
    (specs : ∀ index, SpecWritten index (writeSpec index)) :
    ∀ col ∈ database, (∀ doc ∈ col.docs, server.store (writeDoc doc) = doc.fields) ∧
      ∀ index ∈ col.secondary,
        (writeSpec index).lookup "key" = some (.document index.pattern) := by
  have run := run_writeWith docs specs database
  have delivered := delivers_of_run json banner run (legible_of_keepsOrder json keeps _ run)
  -- The restore may send each document in the order it read it.
  have sentDocs : ∀ name, List.Forall₂ Sent ((docsUnder name database).map writeDoc)
      ((docsUnder name database).map writeDoc) := fun name =>
    List.forall₂_same.mpr fun sent member => by
      obtain ⟨doc, -, rfl⟩ := List.mem_map.mp member
      exact (docs doc).self
  have sentSpecs : ∀ name, List.Forall₂ Sent ((indexesUnder name database).map writeSpec)
      ((indexesUnder name database).map writeSpec) := fun name =>
    List.forall₂_same.mpr fun sent member => by
      obtain ⟨index, -, rfl⟩ := List.mem_map.mp member
      exact (specs index).self
  have kept := keeps
    { docs := fun name => ((docsUnder name database).map writeDoc).map server.store
      keyPatterns := fun name =>
        ((indexesUnder name database).map writeSpec).map (List.lookup "key") }
    ⟨_, run, fun name => ⟨⟨_, by
      rw [(delivered name).1, dumpedDocs_writeWith]
      exact sentDocs name, rfl⟩, _, by
      rw [(delivered name).2, dumpedSpecs_writeWith]
      exact sentSpecs name, rfl⟩⟩
  intro col isCol
  obtain ⟨sameDocs, sameKeys⟩ := kept col.name
  simp only [List.map_map, List.map_inj_left] at sameDocs sameKeys
  constructor
  · intro doc inCol
    exact sameDocs doc (List.mem_flatMap.mpr ⟨col, isCol, by rwa [if_pos rfl]⟩)
  · intro index inCol
    exact sameKeys index (List.mem_flatMap.mpr ⟨col, isCol, by rwa [if_pos rfl]⟩)

theorem docWritten_cons {id : Value σ} (idRemapped : Remapped doc.id id)
    (restRemapped : Remapped (.document doc.rest) (.document rest)) :
    DocWritten doc (("_id", id) :: rest) := by
  obtain ⟨kept, _, same, each, order⟩ := remapped_document_iff.mp restRemapped
  obtain rfl := Value.document.inj same
  have first : "_id" ∉ doc.rest.map Prod.fst := by
    intro repeated
    obtain ⟨field, member, isId⟩ := List.mem_map.mp repeated
    exact doc.noId field member isId
  refine remapped_document_iff.mpr ⟨("_id", id) :: kept, _, rfl, ?_, order.cons _⟩
  rw [StoredDoc.fields, lastWins, if_neg first]
  exact .cons ⟨rfl, idRemapped⟩ each

open Classical in
theorem fewFields_of_keepsOrder
    (keeps : KeepsOrder json.toExtJSON server banner database) : FewFields database := by
  choose writeDoc docs using (fun doc : StoredDoc σ => exists_remapped_document doc.fields)
  choose writeSpec specs using (fun index : Index σ => exists_remapped_document index.dumped)
  intro col isCol
  constructor
  · intro doc inCol
    -- One document written otherwise is still a run.
    have fixed {id : Value σ} {rest : Document σ} (idRemapped : Remapped doc.id id)
        (restRemapped : Remapped (.document doc.rest) (.document rest)) :
        id = doc.id ∧ rest = doc.rest := by
      have changed : ∀ other, DocWritten other
          (Function.update writeDoc doc (("_id", id) :: rest) other) := by
        intro other
        by_cases same : other = doc
        · subst same
          rw [Function.update_self]
          exact docWritten_cons idRemapped restRemapped
        · rw [Function.update_of_ne same]
          exact docs other
      have stored := (stored_of_keepsOrder json keeps changed specs col isCol).1 doc inCol
      rw [Function.update_self] at stored
      have idFirst := server.store_id [] id rest (by simp)
      rw [List.nil_append, List.nil_append] at idFirst
      rw [idFirst, StoredDoc.fields] at stored
      obtain ⟨sameId, sameRest⟩ := List.cons.inj stored
      exact ⟨(Prod.mk.inj sameId).2, sameRest⟩
    obtain ⟨someId, someIdRemapped⟩ := exists_remapped doc.id
    obtain ⟨someRest, someRestRemapped⟩ := exists_remapped_document doc.rest
    constructor
    · exact rigid_iff.mpr fun id idRemapped => (fixed idRemapped someRestRemapped).1
    · refine rigid_iff.mpr fun value remapped => ?_
      obtain ⟨_, rest, rfl, -⟩ := remapped_document_iff.mp remapped
      rw [(fixed someIdRemapped remapped).2]
  · intro index inCol
    refine rigid_iff.mpr fun pattern remapped => ?_
    obtain ⟨written, isWritten, found⟩ :=
      exists_remapped_lookup (distinct_dumped index) (lookup_dumped index) remapped
    have changed : ∀ other, SpecWritten other (Function.update writeSpec index written other) := by
      intro other
      by_cases same : other = index
      · subst same
        rw [Function.update_self]
        exact isWritten
      · rw [Function.update_of_ne same]
        exact specs other
    have stored := (stored_of_keepsOrder json keeps docs changed col isCol).2 index inCol
    rw [Function.update_self, found] at stored
    exact Option.some.inj stored

/-- Documents and key patterns come back in their order from every run exactly
if no order is open and every dump is legible. -/
theorem keepsOrder_iff (json : OrderedJSON σ) (server : Server σ) (banner : Banner)
    (database : List (StoredCollection σ)) :
    KeepsOrder json.toExtJSON server banner database ↔
      FewFields database ∧ LegibleHowever json.toExtJSON database :=
  ⟨fun keeps => ⟨fewFields_of_keepsOrder json keeps, legible_of_keepsOrder json keeps⟩,
    fun ⟨few, legible⟩ => keepsOrder_of_fewFields json server banner few legible⟩

/-! ### A compound index -/

/-- The numbers of an index specification. -/
inductive IndexNumber where
  | ascending
  | descending
  | version
deriving DecidableEq

def IndexNumber.chars : IndexNumber → List Char
  | .ascending => ['1']
  | .descending => ['-', '1']
  | .version => ['2']

def IndexNumber.lead : IndexNumber → Char
  | .ascending => '1'
  | .descending => '-'
  | .version => '2'

theorem IndexNumber.chars_inj (a b : IndexNumber) (rest other : List Char)
    (same : a.chars ++ rest = b.chars ++ other) : a = b ∧ rest = other := by
  cases a <;> cases b <;> simp_all [IndexNumber.chars]

def indexNumberCode : ScalarCode IndexNumber where
  print := IndexNumber.chars
  print_inj := IndexNumber.chars_inj
  lead := IndexNumber.lead
  print_lead a := by cases a <;> rfl
  lead_plain a := by cases a <;> decide
  print_oneLine a := by cases a <;> decide

def docText (doc : Document IndexNumber) : String :=
  String.ofList (print indexNumberCode (.document doc))

def specsListText (specs : { specs : List (Document IndexNumber) // specs ≠ [] }) : String :=
  "[" ++ ", ".intercalate (specs.val.map docText) ++ "]"

theorem docText_readable (a b : Document IndexNumber) (rest other : List Char)
    (same : (docText a).toList ++ rest = (docText b).toList ++ other) : a = b ∧ rest = other := by
  rw [docText, docText, String.toList_ofList, String.toList_ofList] at same
  obtain ⟨sameDoc, sameRest⟩ := print_inj (.document a) _ _ _ same
  exact ⟨Value.document.inj sameDoc, sameRest⟩

theorem docText_injective : Function.Injective docText := fun a b same =>
  (docText_readable a b [] [] (by rw [same])).1

theorem specsListText_injective : Function.Injective specsListText := by
  intro a b same
  have chars := congrArg String.toList same
  simp only [specsListText, String.toList_append] at chars
  have inner := String.toList_injective
    (List.append_cancel_left (List.append_cancel_right chars))
  exact Subtype.ext (intercalate_inj docText_readable (by decide) a.property b.property inner)

theorem docText_begins (doc : Document IndexNumber) : (docText doc).toList.head? = some '\x7b' := by
  rw [docText, String.toList_ofList, print_lead]
  rfl

theorem docText_object (text : String) (doc : Document IndexNumber)
    (parsed : readBack docText text = some doc) :
    (text.toList.dropWhile isSpace).head? = some '\x7b' := by
  obtain ⟨tail, shape⟩ := List.head?_eq_some_iff.mp (docText_begins doc)
  rw [← text_of_readBack parsed, shape, List.dropWhile_cons_of_neg (by decide)]
  rfl

noncomputable def numberJSON : OrderedJSON IndexNumber where
  marshal := docText
  unmarshal := readBack docText
  unmarshalList text := (readBack specsListText text).map Subtype.val
  fieldCount := List.length
  stringField doc name :=
    match doc.lookup name with
    | some (.text value) => value
    | _ => ""
  marshal_oneLine doc := by
    rw [OneLine, docText, String.toList_ofList]
    exact oneLine_print _
  unmarshal_object := docText_object
  unmarshal_marshal := readBack_text docText_injective
  marshal_begins := docText_begins
  marshal_ends doc := by
    rw [docText, String.toList_ofList]
    exact getLast_print_document doc
  unmarshalList_marshal specs some := by
    have back := readBack_text specsListText_injective ⟨specs, some⟩
    exact congrArg (Option.map Subtype.val) back

/-- The first `_id` moved to the front. -/
def idToFront (doc : Document IndexNumber) : Document IndexNumber :=
  match doc.find? fun field => field.1 == "_id" with
  | some field => field :: doc.eraseP fun other => other.1 == "_id"
  | none => doc

theorem idToFront_eq (before : Document IndexNumber) (id : Value IndexNumber)
    (after : Document IndexNumber) (noId : ∀ field ∈ before, field.1 ≠ "_id") :
    idToFront (before ++ ("_id", id) :: after) = ("_id", id) :: (before ++ after) := by
  have absent : ∀ field ∈ before, ¬ (field.1 == "_id") = true := fun field member =>
    by simpa using noId field member
  have found : (before ++ ("_id", id) :: after).find? (fun field => field.1 == "_id") =
      some ("_id", id) := by
    rw [List.find?_append, List.find?_eq_none.mpr absent]
    rfl
  unfold idToFront
  rw [found, List.eraseP_append_right _ absent]
  rfl

def frontServer : Server IndexNumber :=
  { store := idToFront, store_id := idToFront_eq }

def compoundPattern : Document IndexNumber :=
  [("customer", .scalar .ascending), ("placed", .scalar .ascending)]

def compoundSpec : Document IndexNumber :=
  [("v", .scalar .version), ("key", .document compoundPattern),
    ("name", .text "customer_1_placed_1")]

theorem compoundSpec_distinct : (compoundSpec.map Prod.fst).Nodup := by decide

def compoundIndex : Index IndexNumber :=
  { spec := compoundSpec, pattern := compoundPattern, distinct := compoundSpec_distinct,
    hasKey := rfl }

theorem orders_oneLine : OneLine "orders" := by decide

def orders : StoredCollection IndexNumber :=
  { name := "orders", oneLine := orders_oneLine, docs := [], indexes := [compoundIndex] }

/-- A compound index may come back with its fields in another order. -/
theorem compound_order_lost :
    ¬ KeepsOrder numberJSON.toExtJSON frontServer shopBanner [orders] := by
  intro keeps
  have few := fewFields_of_keepsOrder numberJSON keeps orders (List.mem_singleton_self _)
  have secondary : compoundIndex ∈ orders.secondary :=
    List.mem_filter.mpr ⟨List.mem_singleton_self _, rfl⟩
  have rigid : Rigid (.document compoundPattern) := few.2 compoundIndex secondary
  exact absurd (length_rest_le rigid) (by decide)

end DbBackup.Engine.Mongo
