import DbBackup.Engine.Mongo.Dump

/-!
Owns the documents and index specifications the calls of a restore carry, by
collection, and what the lines of one collection of a dump turn into.

Contract: the documents of a collection arrive in batches of one to a thousand,
all of them in order or those before the line that ends the restore
(`readLines_insertBlock`); its indexes arrive with one command or not at all
(`readLines_indexBlock`). A collection that cannot be read loses something of
its own, or ends the restore (`readLines_collection`).
-/

set_option linter.all false

namespace DbBackup.Engine.Mongo

open Lib.GoString Lib.LineScan

variable {Doc : Type}

/-! ### What calls carry -/

def Call.docsFor (name : String) : Call Doc → List Doc
  | .insertMany collection docs => if collection = name then docs else []
  | .runCommand _ => []

def Call.specsFor (name : String) : Call Doc → List Doc
  | .runCommand (.createIndexes collection specs) => if collection = name then specs else []
  | _ => []

def insertedDocs (name : String) (calls : List (Call Doc)) : List Doc :=
  calls.flatMap (Call.docsFor name)

def createdSpecs (name : String) (calls : List (Call Doc)) : List Doc :=
  calls.flatMap (Call.specsFor name)

def Collection.docsFor (name : String) (col : Collection Doc) : List Doc :=
  if col.name = name then col.docs else []

def Collection.specsFor (name : String) (col : Collection Doc) : List Doc :=
  if col.name = name then col.specs else []

def dumpedDocs (name : String) (collections : List (Collection Doc)) : List Doc :=
  collections.flatMap (Collection.docsFor name)

def dumpedSpecs (name : String) (collections : List (Collection Doc)) : List Doc :=
  collections.flatMap (Collection.specsFor name)

def Call.sized : Call Doc → Prop
  | .insertMany _ docs => 1 ≤ docs.length ∧ docs.length ≤ mongoRestoreBatchSize
  | .runCommand _ => True

/-- An insert of one batch into the collection. -/
def Call.batchFor (name : String) : Call Doc → Prop
  | .insertMany collection docs =>
    collection = name ∧ 1 ≤ docs.length ∧ docs.length ≤ mongoRestoreBatchSize
  | .runCommand _ => False

variable (name : String)

@[simp] theorem insertedDocs_append (first second : List (Call Doc)) :
    insertedDocs name (first ++ second) = insertedDocs name first ++ insertedDocs name second :=
  List.flatMap_append

@[simp] theorem createdSpecs_append (first second : List (Call Doc)) :
    createdSpecs name (first ++ second) = createdSpecs name first ++ createdSpecs name second :=
  List.flatMap_append

@[simp] theorem insertedDocs_nil :
    insertedDocs name ([] : List (Call Doc)) = [] := rfl

@[simp] theorem createdSpecs_nil :
    createdSpecs name ([] : List (Call Doc)) = [] := rfl

theorem Call.batchFor.sized {name : String} {call : Call Doc} (batch : call.batchFor name) :
    call.sized := by
  cases call with
  | insertMany collection docs => exact batch.2
  | runCommand command => trivial

theorem Call.idle.sized {call : Call Doc} (idle : call.idle) : call.sized := by
  cases call with
  | insertMany collection docs => exact idle.elim
  | runCommand command => trivial

variable {calls : List (Call Doc)}

theorem insertedDocs_of_idle (idle : ∀ call ∈ calls, call.idle)
    (name : String) : insertedDocs name calls = [] := by
  apply List.flatMap_eq_nil_iff.mpr
  intro call member
  cases call with
  | insertMany collection docs => exact (idle _ member).elim
  | runCommand command => rfl

theorem createdSpecs_of_idle (idle : ∀ call ∈ calls, call.idle)
    (name : String) : createdSpecs name calls = [] := by
  apply List.flatMap_eq_nil_iff.mpr
  intro call member
  cases call with
  | insertMany collection docs => rfl
  | runCommand command =>
    cases command with
    | create collection options => rfl
    | createView view viewOn spec => rfl
    | createIndexes collection specs => exact (idle _ member).elim

theorem createdSpecs_of_batches {col : String}
    (batches : ∀ call ∈ calls, call.batchFor col) (name : String) :
    createdSpecs name calls = [] := by
  apply List.flatMap_eq_nil_iff.mpr
  intro call member
  cases call with
  | insertMany collection docs => rfl
  | runCommand command => exact (batches _ member).elim

theorem insertedDocs_of_batches {col name : String}
    (batches : ∀ call ∈ calls, call.batchFor col) (other : col ≠ name) :
    insertedDocs name calls = [] := by
  apply List.flatMap_eq_nil_iff.mpr
  intro call member
  cases call with
  | insertMany collection docs =>
    obtain ⟨isCol, -⟩ := batches _ member
    rw [Call.docsFor, isCol, if_neg other]
  | runCommand command => rfl

/-! ### Documents -/

variable (json : ExtJSON Doc)

theorem docLines_cons (doc : Doc) (rest : List Doc) : ∃ ending, (ending = "" ∨ ending = ",") ∧
      docLines json (doc :: rest) = ("  " ++ json.marshal doc ++ ending) :: docLines json rest := by
  cases rest with
  | nil => exact ⟨"", .inl rfl, by rw [String.append_empty]; rfl⟩
  | cons next others => exact ⟨",", .inr rfl, rfl⟩

theorem addToBatch_spec (state : ReadState Doc) (doc : Doc)
    (small : state.docs.length < mongoRestoreBatchSize) :
    (addToBatch state doc).1.collection = state.collection ∧
      (addToBatch state doc).1.inInsert = state.inInsert ∧
      (addToBatch state doc).1.docs.length < mongoRestoreBatchSize ∧
      (∀ call ∈ (addToBatch state doc).2.toList, call.batchFor state.collection) ∧
      insertedDocs state.collection (addToBatch state doc).2.toList ++
        (addToBatch state doc).1.docs = state.docs ++ [doc] := by
  have length : (state.docs ++ [doc]).length = state.docs.length + 1 := by simp
  have notEmpty : (state.docs ++ [doc]).isEmpty = false := by simp
  by_cases full : mongoRestoreBatchSize ≤ (state.docs ++ [doc]).length
  · simp only [addToBatch, if_pos full, insertCall, notEmpty, Bool.false_eq_true, if_false]
    refine ⟨trivial, trivial, Nat.zero_lt_of_lt small, ?_, ?_⟩
    · intro call member
      rw [Option.toList_some, List.mem_singleton] at member
      subst member
      exact ⟨rfl, by omega, by omega⟩
    · simp [insertedDocs, Call.docsFor]
  · simp only [addToBatch, if_neg full]
    exact ⟨trivial, trivial, by omega, by simp, by simp⟩

/-- The lines of documents up to the first that does not fit. -/
theorem readLines_docLines (json : InvertibleJSON Doc) (docs : List Doc) {state : ReadState Doc}
    (inside : state.inInsert = true) (small : state.docs.length < mongoRestoreBatchSize) :
    ∃ calls, (∀ call ∈ calls, call.batchFor state.collection) ∧
      ((∃ next, readLines json.toExtJSON state (docLines json.toExtJSON docs) = (calls, some next) ∧
          (next.collection = state.collection ∧ next.inInsert = true ∧
            next.docs.length < mongoRestoreBatchSize) ∧
          insertedDocs state.collection calls ++ next.docs = state.docs ++ docs ∧
          ∀ line ∈ docLines json.toExtJSON docs, line.utf8ByteSize < mongoMaxLineBytes) ∨
        (readLines json.toExtJSON state (docLines json.toExtJSON docs) = (calls, none) ∧
          (insertedDocs state.collection calls).length < state.docs.length + docs.length ∧
          ¬ ∀ line ∈ docLines json.toExtJSON docs, line.utf8ByteSize < mongoMaxLineBytes)) := by
  induction docs generalizing state with
  | nil =>
    refine ⟨[], by simp, .inl ⟨state, rfl, ⟨rfl, inside, small⟩, by simp, by simp [docLines]⟩⟩
  | cons doc rest ih =>
    obtain ⟨ending, separator, shape⟩ := docLines_cons json.toExtJSON doc rest
    by_cases fits : ("  " ++ json.marshal doc ++ ending).utf8ByteSize < mongoMaxLineBytes
    · have stepped := readLine_doc json doc inside separator
      obtain ⟨sameCollection, sameInside, smallNext, batch, carried⟩ :=
        addToBatch_spec state doc small
      obtain ⟨calls, batches, outcome⟩ :=
        ih (sameInside.trans inside) smallNext
      rw [sameCollection] at batches outcome
      have all : readLines json.toExtJSON state (docLines json.toExtJSON (doc :: rest)) =
          ((addToBatch state doc).2.toList ++
              (readLines json.toExtJSON (addToBatch state doc).1 (docLines json.toExtJSON rest)).1,
            (readLines json.toExtJSON (addToBatch state doc).1
              (docLines json.toExtJSON rest)).2) := by
        rw [shape]
        exact readLines_cons_of_ok fits stepped _
      refine ⟨(addToBatch state doc).2.toList ++ calls, ?_, ?_⟩
      · intro call member
        rcases List.mem_append.mp member with early | late
        · exact batch call early
        · exact batches call late
      · rcases outcome with ⟨next, read, ⟨sameNext, insideNext, smallLast⟩, kept, allFit⟩ |
          ⟨stopped, fewer, long⟩
        · refine .inl ⟨next, by rw [all, read], ⟨sameNext, insideNext, smallLast⟩, ?_, ?_⟩
          · rw [insertedDocs_append, List.append_assoc, kept, ← List.append_assoc, carried,
              List.append_assoc, List.singleton_append]
          · rw [shape]
            intro line member
            rcases List.mem_cons.mp member with rfl | later
            · exact fits
            · exact allFit line later
        · refine .inr ⟨by rw [all, stopped], ?_, ?_⟩
          · have sizes := congrArg List.length carried
            simp only [List.length_append, List.length_singleton] at sizes
            rw [insertedDocs_append, List.length_append, List.length_cons]
            omega
          · rw [shape]
            intro allFit
            exact long (List.forall_mem_cons.mp allFit).2
    · refine ⟨[], by simp, .inr ⟨?_, ?_, ?_⟩⟩
      · rw [shape]
        exact readLines_cons_of_long state fits _
      · rw [insertedDocs_nil, List.length_nil, List.length_cons]
        omega
      · rw [shape]
        intro allFit
        exact fits (allFit _ List.mem_cons_self)

/-! ### One collection -/

/-- The documents of a collection can be read, and under its name. -/
structure InsertReadable (json : ExtJSON Doc) (col : Collection Doc) : Prop where
  free : contains col.name ".insertMany" = false
  clear : misread (insertManyLine col.name) = false
  fits : (insertManyLine col.name).utf8ByteSize < mongoMaxLineBytes
  docsFit : ∀ line ∈ docLines json col.docs, line.utf8ByteSize < mongoMaxLineBytes

structure IndexReadable (json : ExtJSON Doc) (col : Collection Doc) : Prop where
  free : contains col.name ".createIndexes([" = false
  clear : mistaken (indexesLine json col.name col.specs) = false
  fits : (indexesLine json col.name col.specs).utf8ByteSize < mongoMaxLineBytes

structure Readable (json : ExtJSON Doc) (col : Collection Doc) : Prop where
  comment : (commentLine col.name).utf8ByteSize < mongoMaxLineBytes
  inserts : col.docs ≠ [] → InsertReadable json col
  indexes : col.specs ≠ [] → IndexReadable json col

/-- The list of the index specifications reads back, where there is one. -/
def SpecsReadBack (json : ExtJSON Doc) (col : Collection Doc) : Prop :=
  col.specs ≠ [] → json.unmarshalList ("[" ++ specsText json col.specs ++ "]") = some col.specs

theorem fits_short : "".utf8ByteSize < mongoMaxLineBytes ∧ "]);".utf8ByteSize < mongoMaxLineBytes := by
  decide

theorem readLines_close {state : ReadState Doc} (inside : state.inInsert = true) :
    readLines json state ["]);", ""] = ((insertCall state.collection state.docs).toList,
      some { state with inInsert := false, docs := [] }) := by
  rw [readLines_cons_of_ok fits_short.2 (readLine_close json inside),
    readLines_cons_of_ok fits_short.1 (readLine_of_isComment json _ isComment_empty)]
  simp [readLines]

theorem insertCall_spec {docs : List Doc} (small : docs.length < mongoRestoreBatchSize)
    (name : String) : (∀ call ∈ (insertCall name docs).toList, call.batchFor name) ∧
      insertedDocs name (insertCall name docs).toList = docs := by
  unfold insertCall
  cases docs with
  | nil => simp
  | cons doc rest =>
    refine ⟨?_, by simp [insertedDocs, Call.docsFor]⟩
    intro call member
    simp only [List.isEmpty_cons, Bool.false_eq_true, if_false, Option.toList_some,
      List.mem_singleton] at member
    subst member
    exact ⟨rfl, Nat.succ_pos _, Nat.le_of_lt small⟩

variable {col : Collection Doc}

/-- The documents of a collection, up to the line that ends the restore. -/
theorem readLines_insertBlock (json : InvertibleJSON Doc) (state : ReadState Doc)
    (free : col.docs ≠ [] → contains col.name ".insertMany" = false) :
    ∃ calls, (∀ call ∈ calls, call.batchFor col.name) ∧
      (((col.docs ≠ [] → InsertReadable json.toExtJSON col) ∧
          insertedDocs col.name calls = col.docs ∧
          ∃ next, readLines json.toExtJSON state (insertBlock json.toExtJSON col) =
            (calls, some next)) ∨
        (¬ (col.docs ≠ [] → InsertReadable json.toExtJSON col) ∧
          (insertedDocs col.name calls).length < col.docs.length ∧
          readLines json.toExtJSON state (insertBlock json.toExtJSON col) = (calls, none))) := by
  by_cases something : col.docs = []
  · refine ⟨[], by simp, .inl ⟨fun some => absurd something some, something.symm, state, ?_⟩⟩
    simp [insertBlock, something, readLines]
  have nameFree := free something
  have some : 0 < col.docs.length := List.length_pos_iff.mpr something
  have shape : insertBlock json.toExtJSON col =
      insertManyLine col.name :: (docLines json.toExtJSON col.docs ++ ["]);", ""]) := by
    unfold insertBlock
    rw [if_neg (by simpa using something)]
  by_cases fits : (insertManyLine col.name).utf8ByteSize < mongoMaxLineBytes
  · cases clear : misread (insertManyLine col.name) with
    | true =>
      obtain ⟨message, failed⟩ := readLine_insertMany_error json.toExtJSON state clear
      refine ⟨[], by simp, .inr ⟨?_, some, by rw [shape, readLines_cons_of_error failed]⟩⟩
      intro readable
      exact Bool.false_ne_true ((readable something).clear.symm.trans clear)
    | false =>
      have opened := readLine_insertMany json.toExtJSON state clear
      rw [extractCollection_insertMany nameFree] at opened
      obtain ⟨calls, batches, outcome⟩ := @readLines_docLines _ json col.docs
        { collection := col.name, inInsert := true, docs := [] } rfl (by simp [mongoRestoreBatchSize])
      rw [shape, readLines_cons_of_ok fits opened]
      rcases outcome with ⟨next, read, ⟨sameNext, inside, small⟩, kept, docsFit⟩ |
        ⟨stopped, fewer, long⟩
      · obtain ⟨lastBatch, lastDocs⟩ := insertCall_spec small col.name
        simp only [List.nil_append] at kept sameNext
        refine ⟨calls ++ (insertCall col.name next.docs).toList, ?_, .inl
          ⟨fun _ => ⟨nameFree, clear, fits, docsFit⟩, ?_,
            { next with inInsert := false, docs := [] }, ?_⟩⟩
        · intro call member
          rcases List.mem_append.mp member with early | late
          · exact batches call early
          · exact lastBatch call late
        · rw [insertedDocs_append, lastDocs, kept]
        · rw [readLines_append_of_some read, readLines_close json.toExtJSON inside, sameNext]
          rfl
      · refine ⟨calls, batches, .inr ⟨?_, ?_, by rw [readLines_append_of_none stopped]; rfl⟩⟩
        · intro readable
          exact long (readable something).docsFit
        · simpa using fewer
  · refine ⟨[], by simp, .inr ⟨?_, some, by rw [shape, readLines_cons_of_long state fits]⟩⟩
    intro readable
    exact fits (readable something).fits

/-- The indexes of a collection: created under its name, or not at all. -/
theorem readLines_indexBlock (state : ReadState Doc)
    (free : col.specs ≠ [] → contains col.name ".createIndexes([" = false)
    (readBack : SpecsReadBack json col) :
    ∃ calls ending, readLines json state (indexBlock json col) = (calls, ending) ∧
      (∀ call ∈ calls, call.sized) ∧ (∀ name, insertedDocs name calls = []) ∧
      (((col.specs ≠ [] → IndexReadable json col) ∧ ending = some state ∧
          ∀ name, createdSpecs name calls = col.specsFor name) ∨
        (¬ (col.specs ≠ [] → IndexReadable json col) ∧ (ending = none ∨ ending = some state) ∧
          ∀ name, createdSpecs name calls = [])) := by
  by_cases something : col.specs = []
  · refine ⟨[], some state, by simp [indexBlock, something, readLines], by simp, fun _ => rfl,
      .inl ⟨fun some => absurd something some, rfl, ?_⟩⟩
    intro name
    simp [Collection.specsFor, something]
  have nameFree := free something
  have shape : indexBlock json col = [indexesLine json col.name col.specs, ""] := by
    unfold indexBlock
    rw [if_neg (by simpa using something)]
  have blank : readLines json state [""] = ([], some state) := by
    rw [readLines_cons_of_ok fits_short.1 (readLine_of_isComment json _ isComment_empty)]
    rfl
  by_cases fits : (indexesLine json col.name col.specs).utf8ByteSize < mongoMaxLineBytes
  · cases clear : mistaken (indexesLine json col.name col.specs) with
    | false =>
      have read := readLine_indexes json state clear
      rw [indexesCommand_indexesLine json nameFree something (readBack something)] at read
      refine ⟨[.runCommand (.createIndexes col.name col.specs)], some state, ?_, ?_, fun _ => rfl,
        .inl ⟨fun _ => ⟨nameFree, clear, fits⟩, rfl, ?_⟩⟩
      · rw [shape, readLines_cons_of_ok fits read, blank]
        rfl
      · intro call member
        rw [List.mem_singleton.mp member]
        trivial
      · intro name
        simp [createdSpecs, Call.specsFor, Collection.specsFor]
    | true =>
      have unreadable : ¬ (col.specs ≠ [] → IndexReadable json col) := by
        intro readable
        exact Bool.false_ne_true ((readable something).clear.symm.trans clear)
      rcases readLine_indexes_mistaken json state clear with ⟨message, failed⟩ |
        ⟨call, read, idle⟩
      · refine ⟨[], none, by rw [shape, readLines_cons_of_error failed], by simp, fun _ => rfl,
          .inr ⟨unreadable, .inl rfl, fun _ => rfl⟩⟩
      · have allIdle : ∀ other ∈ call.toList, other.idle := fun other member =>
          idle other (Option.mem_toList.mp member)
        refine ⟨call.toList, some state, ?_, fun other member => (allIdle other member).sized,
          insertedDocs_of_idle allIdle, .inr ⟨unreadable, .inr rfl, createdSpecs_of_idle allIdle⟩⟩
        rw [shape, readLines_cons_of_ok fits read, blank, List.append_nil]
  · refine ⟨[], none, by rw [shape, readLines_cons_of_long state fits], by simp, fun _ => rfl,
      .inr ⟨?_, .inl rfl, fun _ => rfl⟩⟩
    intro readable
    exact fits (readable something).fits

/-- The collection is written under a name that its own statements do not cut. -/
def Free (col : Collection Doc) : Prop :=
  (col.docs ≠ [] → contains col.name ".insertMany" = false) ∧
    (col.specs ≠ [] → contains col.name ".createIndexes([" = false)

theorem Readable.isFree {json : ExtJSON Doc} (readable : Readable json col) : Free col :=
  ⟨fun some => (readable.inserts some).free, fun some => (readable.indexes some).free⟩

theorem docsFor_of_batches (batches : ∀ call ∈ calls, call.batchFor col.name)
    (all : insertedDocs col.name calls = col.docs) (name : String) :
    insertedDocs name calls = col.docsFor name := by
  unfold Collection.docsFor
  split
  · rename_i same
    rw [← same, all]
  · rename_i other
    exact insertedDocs_of_batches batches other

/-- What the lines of a collection that cannot be read leave out: everything,
some of its documents, or its indexes. -/
def Lost (col : Collection Doc) (calls : List (Call Doc)) (ending : Option (ReadState Doc)) : Prop :=
  (ending = none ∧ calls = [] ∧ ¬ (commentLine col.name).utf8ByteSize < mongoMaxLineBytes) ∨
    (ending = none ∧ (insertedDocs col.name calls).length < col.docs.length) ∨
    col.specs ≠ []

theorem readLines_collection (json : InvertibleJSON Doc) (state : ReadState Doc)
    (free : Free col) (readBack : SpecsReadBack json.toExtJSON col) :
    ∃ calls ending, readLines json.toExtJSON state (collectionLines json.toExtJSON col) =
        (calls, ending) ∧ (∀ call ∈ calls, call.sized) ∧
      ((Readable json.toExtJSON col ∧ ending.isSome = true ∧
          ∀ name, insertedDocs name calls = col.docsFor name ∧
            createdSpecs name calls = col.specsFor name) ∨
        (¬ Readable json.toExtJSON col ∧ (∀ name, createdSpecs name calls = []) ∧
          Lost col calls ending)) := by
  by_cases fits : (commentLine col.name).utf8ByteSize < mongoMaxLineBytes
  · have skipped := readLine_of_isComment json.toExtJSON state (isComment_commentLine col.name)
    rw [collectionLines, readLines_cons_of_ok fits skipped]
    simp only [Option.toList_none, List.nil_append]
    obtain ⟨inserts, batches, inserted⟩ := readLines_insertBlock json state free.1
    rcases inserted with ⟨insertsRead, all, next, read⟩ | ⟨unread, fewer, stopped⟩
    · rw [readLines_append_of_some read]
      obtain ⟨creates, ending, readIndexes, sized, noDocs, created⟩ :=
        readLines_indexBlock json.toExtJSON next free.2 readBack
      rw [readIndexes]
      refine ⟨inserts ++ creates, ending, rfl, ?_, ?_⟩
      · intro call member
        rcases List.mem_append.mp member with early | late
        · exact (batches call early).sized
        · exact sized call late
      · rcases created with ⟨indexesRead, isEnding, specs⟩ | ⟨unreadIndexes, isEnding, noSpecs⟩
        · refine .inl ⟨⟨fits, insertsRead, indexesRead⟩, by rw [isEnding]; rfl, ?_⟩
          intro name
          rw [insertedDocs_append, createdSpecs_append, noDocs, List.append_nil,
            createdSpecs_of_batches batches, List.nil_append, specs]
          exact ⟨docsFor_of_batches batches all name, rfl⟩
        · refine .inr ⟨fun readable => unreadIndexes readable.indexes, ?_, .inr (.inr ?_)⟩
          · intro name
            rw [createdSpecs_append, createdSpecs_of_batches batches, noSpecs, List.append_nil]
          · intro none
            exact unreadIndexes fun some => absurd none some
    · rw [readLines_append_of_none stopped]
      refine ⟨inserts, none, rfl, fun call member => (batches call member).sized, .inr
        ⟨fun readable => unread readable.inserts, createdSpecs_of_batches batches,
          .inr (.inl ⟨rfl, fewer⟩)⟩⟩
  · refine ⟨[], none, readLines_cons_of_long state fits _, by simp, .inr
      ⟨fun readable => fits readable.comment, fun _ => rfl, .inl ⟨rfl, rfl, fits⟩⟩⟩

end DbBackup.Engine.Mongo
