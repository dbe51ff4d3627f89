import DbBackup.Engine.Mongo.Batches

/-!
Owns what a restore delivers of a whole dump of
`internal/database/engine/mongo`.

Contract: a dump is delivered as it is exactly if every collection up to the
last one that has something to deliver can be read (`Legible`): its lines fit
the buffer, and no statement of it holds the marker of another one. Already as
many documents and indexes as were dumped arrive only then
(`sameCounts_iff_legible`).
-/

set_option linter.all false

namespace DbBackup.Engine.Mongo

open Lib.GoString Lib.LineScan

variable {Doc : Type}

/-! ### A whole dump -/

def HasContent (collections : List (Collection Doc)) : Prop :=
  ∃ col ∈ collections, col.docs ≠ [] ∨ col.specs ≠ []

/-- Every collection up to the last one that has something to deliver can be read. -/
def Legible (json : ExtJSON Doc) (collections : List (Collection Doc)) : Prop :=
  ∀ before col after, collections = before ++ col :: after → HasContent (col :: after) →
    Readable json col

theorem legible_cons_iff (json : ExtJSON Doc) (col : Collection Doc)
    (rest : List (Collection Doc)) :
    Legible json (col :: rest) ↔
      (HasContent (col :: rest) → Readable json col) ∧ Legible json rest := by
  constructor
  · intro legible
    refine ⟨legible [] col rest rfl, ?_⟩
    intro before other after shape content
    exact legible (col :: before) other after (by rw [shape]; rfl) content
  · rintro ⟨head, tail⟩ before other after shape content
    cases before with
    | nil =>
      obtain ⟨rfl, rfl⟩ := List.cons.inj shape
      exact head content
    | cons first before =>
      obtain ⟨rfl, rest⟩ := List.cons.inj shape
      exact tail before other after rest content

variable {collections : List (Collection Doc)}

theorem legible_of_no_content (json : ExtJSON Doc)
    (empty : ¬ HasContent collections) : Legible json collections := by
  rintro before col after rfl ⟨other, member, content⟩
  exact absurd ⟨other, List.mem_append_right _ member, content⟩ empty

/-- What the calls carry is what was dumped. -/
def Delivers (calls : List (Call Doc)) (collections : List (Collection Doc)) : Prop :=
  ∀ name, insertedDocs name calls = dumpedDocs name collections ∧
    createdSpecs name calls = dumpedSpecs name collections

/-- The calls carry as much as was dumped. -/
def SameCounts (calls : List (Call Doc)) (collections : List (Collection Doc)) : Prop :=
  ∀ name, (insertedDocs name calls).length = (dumpedDocs name collections).length ∧
    (createdSpecs name calls).length = (dumpedSpecs name collections).length

variable {calls : List (Call Doc)}

theorem Delivers.sameCounts
    (delivers : Delivers calls collections) : SameCounts calls collections := fun name =>
  ⟨congrArg List.length (delivers name).1, congrArg List.length (delivers name).2⟩

def collectionsLines (json : ExtJSON Doc) (collections : List (Collection Doc)) : List String :=
  collections.flatMap (collectionLines json)

theorem dumpedDocs_cons (name : String) (col : Collection Doc) (rest : List (Collection Doc)) :
    dumpedDocs name (col :: rest) = col.docsFor name ++ dumpedDocs name rest :=
  List.flatMap_cons

theorem dumpedSpecs_cons (name : String) (col : Collection Doc) (rest : List (Collection Doc)) :
    dumpedSpecs name (col :: rest) = col.specsFor name ++ dumpedSpecs name rest :=
  List.flatMap_cons

variable {state : ReadState Doc}

/-- Reading the lines of a list of collections, by the outcome for the first. -/
theorem readLines_collections_cons (json : ExtJSON Doc)
    {col : Collection Doc} {ending : Option (ReadState Doc)}
    (read : readLines json state (collectionLines json col) = (calls, ending))
    (rest : List (Collection Doc)) :
    readLines json state (collectionsLines json (col :: rest)) =
      match ending with
      | none => (calls, none)
      | some next => (calls ++ (readLines json next (collectionsLines json rest)).1,
          (readLines json next (collectionsLines json rest)).2) := by
  unfold collectionsLines
  rw [List.flatMap_cons]
  cases ending with
  | none => exact readLines_append_of_none read _
  | some next => exact readLines_append_of_some read _

theorem free_of_no_content {col : Collection Doc} (empty : ¬ (col.docs ≠ [] ∨ col.specs ≠ [])) :
    Free col :=
  ⟨fun some => absurd (.inl some) empty, fun some => absurd (.inr some) empty⟩

variable (json : InvertibleJSON Doc)

/-- Collections with nothing to deliver deliver nothing. -/
theorem delivers_of_no_content (state : ReadState Doc)  (empty : ¬ HasContent collections) :
    Delivers (readLines json.toExtJSON state (collectionsLines json.toExtJSON collections)).1
      collections := by
  induction collections generalizing state with
  | nil =>
    intro name
    exact ⟨rfl, rfl⟩
  | cons col rest ih =>
    have emptyCol : ¬ (col.docs ≠ [] ∨ col.specs ≠ []) := fun content =>
      empty ⟨col, List.mem_cons_self, content⟩
    have emptyRest : ¬ HasContent rest := fun ⟨other, member, content⟩ =>
      empty ⟨other, List.mem_cons_of_mem _ member, content⟩
    rw [not_or, not_not, not_not] at emptyCol
    obtain ⟨noDocs, noSpecs⟩ := emptyCol
    have readBack : SpecsReadBack json.toExtJSON col := fun some => absurd noSpecs some
    have free : Free col := free_of_no_content (by simp [noDocs, noSpecs])
    obtain ⟨calls, ending, read, -, outcome⟩ := readLines_collection json state free readBack
    rw [readLines_collections_cons json.toExtJSON read]
    rcases outcome with ⟨-, isSome, carried⟩ | ⟨-, -, lost⟩
    · obtain ⟨next, rfl⟩ := Option.isSome_iff_exists.mp isSome
      intro name
      obtain ⟨docs, specs⟩ := ih next emptyRest name
      rw [dumpedDocs_cons, dumpedSpecs_cons, insertedDocs_append, createdSpecs_append,
        (carried name).1, (carried name).2, docs, specs]
      exact ⟨rfl, rfl⟩
    · rcases lost with ⟨rfl, rfl, -⟩ | ⟨-, fewer⟩ | some
      · intro name
        have nothing : ∀ other ∈ col :: rest, other.docs = [] ∧ other.specs = [] := by
          intro other member
          rw [← not_not (a := other.docs = []), ← not_not (a := other.specs = []), ← not_or]
          exact fun content => empty ⟨other, member, content⟩
        constructor
        · refine (List.flatMap_eq_nil_iff.mpr ?_).symm
          intro other member
          simp [Collection.docsFor, (nothing other member).1]
        · refine (List.flatMap_eq_nil_iff.mpr ?_).symm
          intro other member
          simp [Collection.specsFor, (nothing other member).2]
      · rw [noDocs] at fewer
        exact absurd fewer (Nat.not_lt_zero _)
      · exact absurd noSpecs some

/-- A legible dump arrives as it was written. -/
theorem delivers_of_legible (state : ReadState Doc)
    (readBack : ∀ col ∈ collections, SpecsReadBack json.toExtJSON col)
    (legible : Legible json.toExtJSON collections) :
    Delivers (readLines json.toExtJSON state (collectionsLines json.toExtJSON collections)).1
      collections := by
  induction collections generalizing state with
  | nil =>
    intro name
    exact ⟨rfl, rfl⟩
  | cons col rest ih =>
    by_cases content : HasContent (col :: rest)
    · rw [legible_cons_iff] at legible
      have readable := legible.1 content
      obtain ⟨calls, ending, read, -, outcome⟩ := readLines_collection json state
        readable.isFree (readBack col List.mem_cons_self)
      rw [readLines_collections_cons json.toExtJSON read]
      rcases outcome with ⟨-, isSome, carried⟩ | ⟨unreadable, -⟩
      · obtain ⟨next, rfl⟩ := Option.isSome_iff_exists.mp isSome
        intro name
        obtain ⟨docs, specs⟩ := ih next
          (List.forall_mem_cons.mp readBack).2 legible.2 name
        rw [dumpedDocs_cons, dumpedSpecs_cons, insertedDocs_append, createdSpecs_append,
          (carried name).1, (carried name).2, docs, specs]
        exact ⟨rfl, rfl⟩
      · exact absurd readable unreadable
    · exact delivers_of_no_content json state content

/-- Whatever arrives comes in batches of one to a thousand documents. -/
theorem sized_collections (state : ReadState Doc)
    (readBack : ∀ col ∈ collections, SpecsReadBack json.toExtJSON col)
    (free : ∀ col ∈ collections, Free col) :
    ∀ call ∈ (readLines json.toExtJSON state
      (collectionsLines json.toExtJSON collections)).1, call.sized := by
  induction collections generalizing state with
  | nil => simp [collectionsLines, readLines]
  | cons col rest ih =>
    obtain ⟨calls, ending, read, sized, -⟩ := readLines_collection json state
      (free col List.mem_cons_self) (readBack col List.mem_cons_self)
    rw [readLines_collections_cons json.toExtJSON read]
    cases ending with
    | none => exact sized
    | some next =>
      intro call member
      rcases List.mem_append.mp member with early | late
      · exact sized call early
      · exact ih next
          (List.forall_mem_cons.mp readBack).2
          (List.forall_mem_cons.mp free).2 call late

/-- Indexes may get lost, but none is made up. -/
theorem createdSpecs_le (state : ReadState Doc)
    (readBack : ∀ col ∈ collections, SpecsReadBack json.toExtJSON col)
    (free : ∀ col ∈ collections, Free col) (name : String) :
    (createdSpecs name (readLines json.toExtJSON state
        (collectionsLines json.toExtJSON collections)).1).length ≤
      (dumpedSpecs name collections).length := by
  induction collections generalizing state with
  | nil => exact Nat.le_refl 0
  | cons col rest ih =>
    obtain ⟨calls, ending, read, -, outcome⟩ := readLines_collection json state
      (free col List.mem_cons_self) (readBack col List.mem_cons_self)
    have ofFirst : (createdSpecs name calls).length ≤ (col.specsFor name).length := by
      rcases outcome with ⟨-, -, carried⟩ | ⟨-, noSpecs, -⟩
      · rw [(carried name).2]
      · rw [noSpecs]
        exact Nat.zero_le _
    rw [readLines_collections_cons json.toExtJSON read, dumpedSpecs_cons, List.length_append]
    cases ending with
    | none => exact Nat.le_add_right_of_le ofFirst
    | some next =>
      have ofRest := ih next
        (List.forall_mem_cons.mp readBack).2
        (List.forall_mem_cons.mp free).2
      simp only [createdSpecs_append, List.length_append]
      exact Nat.add_le_add ofFirst ofRest

theorem legible_of_sameCounts (state : ReadState Doc)
    (readBack : ∀ col ∈ collections, SpecsReadBack json.toExtJSON col)
    (free : ∀ col ∈ collections, Free col)
    (counts : SameCounts (readLines json.toExtJSON state
      (collectionsLines json.toExtJSON collections)).1 collections) :
    Legible json.toExtJSON collections := by
  induction collections generalizing state with
  | nil => exact legible_of_no_content _ (by simp [HasContent])
  | cons col rest ih =>
    by_cases content : HasContent (col :: rest)
    swap
    · exact legible_of_no_content _ content
    have restBack := (List.forall_mem_cons.mp readBack).2
    have restFree := (List.forall_mem_cons.mp free).2
    obtain ⟨calls, ending, read, -, outcome⟩ := readLines_collection json state
      (free col List.mem_cons_self) (readBack col List.mem_cons_self)
    rw [readLines_collections_cons json.toExtJSON read] at counts
    rcases outcome with ⟨readable, isSome, carried⟩ | ⟨-, noSpecs, lost⟩
    · obtain ⟨next, rfl⟩ := Option.isSome_iff_exists.mp isSome
      refine (legible_cons_iff _ _ _).mpr ⟨fun _ => readable, ?_⟩
      refine ih next restBack restFree ?_
      intro name
      obtain ⟨docs, specs⟩ := counts name
      simp only [dumpedDocs_cons, dumpedSpecs_cons, insertedDocs_append, createdSpecs_append,
        (carried name).1, (carried name).2, List.length_append] at docs specs
      exact ⟨by omega, by omega⟩
    · exfalso
      have ownDocs : col.docsFor col.name = col.docs := if_pos rfl
      have ownSpecs : col.specsFor col.name = col.specs := if_pos rfl
      rcases lost with ⟨rfl, rfl, -⟩ | ⟨rfl, fewer⟩ | some
      · obtain ⟨other, member, something⟩ := content
        obtain ⟨docs, specs⟩ := counts other.name
        have noDocs : dumpedDocs other.name (col :: rest) = [] :=
          List.length_eq_zero_iff.mp docs.symm
        have noSpecs : dumpedSpecs other.name (col :: rest) = [] :=
          List.length_eq_zero_iff.mp specs.symm
        have otherDocs := List.flatMap_eq_nil_iff.mp noDocs other member
        have otherSpecs := List.flatMap_eq_nil_iff.mp noSpecs other member
        rw [Collection.docsFor, if_pos rfl] at otherDocs
        rw [Collection.specsFor, if_pos rfl] at otherSpecs
        exact something.elim (fun some => some otherDocs) fun some => some otherSpecs
      · have docs := (counts col.name).1
        rw [dumpedDocs_cons, ownDocs, List.length_append] at docs
        simp only at docs
        omega
      · have specs := (counts col.name).2
        have some := List.length_pos_iff.mpr some
        rw [dumpedSpecs_cons, ownSpecs, List.length_append] at specs
        cases ending with
        | none =>
          simp only [noSpecs, List.length_nil] at specs
          omega
        | some next =>
          have ofRest := createdSpecs_le json next restBack restFree col.name
          simp only [createdSpecs_append, noSpecs, List.nil_append] at specs
          omega

/-! ### Names that are cut -/

/-- The collection of a call is a name cut off before the marker of its statement. -/
def Call.named : Call Doc → Prop
  | .insertMany collection _ => contains collection ".insertMany" = false
  | .runCommand (.create _ _) => True
  | .runCommand (.createView _ _ _) => True
  | .runCommand (.createIndexes collection _) => contains collection ".createIndexes([" = false

theorem Call.idle.named {call : Call Doc} (idle : call.idle) : call.named := by
  cases call with
  | insertMany collection docs => exact idle.elim
  | runCommand command =>
    cases command with
    | create collection options => trivial
    | createView view viewOn spec => trivial
    | createIndexes collection specs => exact idle.elim

theorem extractCollection_free (line : String) :
    contains (extractCollection line) ".insertMany" = false := by
  unfold extractCollection
  cases cut : cutAt ".insertMany" (trimPrefix line "db.") with
  | none => decide
  | some parts =>
    obtain ⟨collection, rest⟩ := parts
    exact cutAt_free (by decide) cut

theorem parsePayload_free {statement marker line target payload : String}
    (notEmpty : marker.toList ≠ [])
    (parsed : parsePayload statement marker line = .ok (target, payload)) :
    contains target marker = false := by
  unfold parsePayload at parsed
  cases cut : cutAt marker (trimPrefix line "db.") with
  | none => simp [cut] at parsed
  | some parts =>
    obtain ⟨collection, rest⟩ := parts
    simp only [cut] at parsed
    split at parsed
    · obtain ⟨rfl, -⟩ := Prod.mk.inj (Except.ok.inj parsed)
      exact cutAt_free notEmpty cut
    · exact absurd parsed (by simp)

theorem indexesCommand_named {json : ExtJSON Doc} {line : String} {command : Option (Command Doc)}
    (parsed : indexesCommand json line = .ok command) :
    ∀ call ∈ command.map Call.runCommand, call.named := by
  unfold indexesCommand at parsed
  cases payload : parsePayload "createIndexes" ".createIndexes([" line with
  | error message => simp [payload, bind, Except.bind] at parsed
  | ok parts =>
    obtain ⟨collection, rest⟩ := parts
    have free := parsePayload_free (by decide) payload
    simp only [payload, bind, Except.bind] at parsed
    split at parsed
    · exact absurd parsed (by simp)
    · simp [← Except.ok.inj parsed]
    · simp [← Except.ok.inj parsed, Call.named, free]

theorem insertCall_named {collection : String}
    (free : contains collection ".insertMany" = false) (docs : List Doc) :
    ∀ call ∈ insertCall collection docs, call.named := by
  unfold insertCall
  split
  · simp
  · intro call member
    rw [← Option.some.inj member]
    exact free

theorem addToBatch_named (free : contains state.collection ".insertMany" = false) (doc : Doc) :
    contains (addToBatch state doc).1.collection ".insertMany" = false ∧
      ∀ call ∈ (addToBatch state doc).2, call.named := by
  unfold addToBatch
  simp only []
  split
  · exact ⟨free, insertCall_named free _⟩
  · exact ⟨free, by simp⟩

theorem readLine_named {json : ExtJSON Doc} {state next : ReadState Doc} {text : String}
    {call : Option (Call Doc)} (free : contains state.collection ".insertMany" = false)
    (read : readLine json state text = .ok (next, call)) :
    contains next.collection ".insertMany" = false ∧ ∀ other ∈ call, other.named := by
  have asCommand {parsed : Except String (Option (Command Doc))}
      (named : ∀ command, parsed = .ok command → ∀ call ∈ command.map Call.runCommand, call.named)
      (done : (parsed.map fun command => (state, command.map Call.runCommand)) = .ok (next, call)) :
      contains next.collection ".insertMany" = false ∧ ∀ other ∈ call, other.named := by
    cases parsed with
    | error message => exact absurd done (by simp [Except.map])
    | ok command =>
      obtain ⟨rfl, rfl⟩ := Prod.mk.inj (Except.ok.inj done)
      exact ⟨free, named command rfl⟩
  have unchanged (done : Except.ok (state, none) = (.ok (next, call) : Except String _)) :
      contains next.collection ".insertMany" = false ∧ ∀ other ∈ call, other.named := by
    obtain ⟨rfl, rfl⟩ := Prod.mk.inj (Except.ok.inj done)
    exact ⟨free, by simp⟩
  unfold readLine at read
  generalize trimSpace text = line at read
  simp only [] at read
  split at read
  · exact unchanged read
  split at read
  · exact asCommand (fun command parsed call member =>
      (collectionCommand_idle parsed call member).named) read
  split at read
  · exact asCommand (fun command parsed call member =>
      (viewCommand_idle parsed call member).named) read
  split at read
  · exact asCommand (fun command parsed => indexesCommand_named parsed) read
  split at read
  · obtain ⟨rfl, rfl⟩ := Prod.mk.inj (Except.ok.inj read)
    exact ⟨extractCollection_free line, by simp⟩
  split at read
  · split at read
    · obtain ⟨rfl, rfl⟩ := Prod.mk.inj (Except.ok.inj read)
      exact ⟨free, insertCall_named free _⟩
    · split at read
      · exact absurd read (by simp)
      · exact unchanged read
      · rename_i doc parsed
        have added := addToBatch_named free doc
        rwa [Except.ok.inj read] at added
  · exact unchanged read

theorem readLines_named (json : ExtJSON Doc) (lines : List String)
    (free : contains state.collection ".insertMany" = false) :
    ∀ call ∈ (readLines json state lines).1, call.named := by
  induction lines generalizing state with
  | nil => simp [readLines]
  | cons line rest ih =>
    rw [readLines]
    split
    · simp
    · cases read : readLine json state line with
      | error message => simp
      | ok result =>
        obtain ⟨next, call⟩ := result
        obtain ⟨freeNext, named⟩ := readLine_named free read
        intro other member
        rcases List.mem_append.mp member with early | late
        · exact named other (Option.mem_toList.mp early)
        · exact ih freeNext other late

theorem insertedDocs_of_cut (named : ∀ call ∈ calls, call.named)
    {name : String} (cut : contains name ".insertMany" = true) : insertedDocs name calls = [] := by
  apply List.flatMap_eq_nil_iff.mpr
  intro call member
  cases call with
  | insertMany collection docs =>
    have free : contains collection ".insertMany" = false := named _ member
    rw [Call.docsFor, if_neg]
    rintro rfl
    exact Bool.false_ne_true (free.symm.trans cut)
  | runCommand command => rfl

theorem createdSpecs_of_cut (named : ∀ call ∈ calls, call.named)
    {name : String} (cut : contains name ".createIndexes([" = true) :
    createdSpecs name calls = [] := by
  apply List.flatMap_eq_nil_iff.mpr
  intro call member
  cases call with
  | insertMany collection docs => rfl
  | runCommand command =>
    cases command with
    | create collection options => rfl
    | createView view viewOn spec => rfl
    | createIndexes collection specs =>
      have free : contains collection ".createIndexes([" = false := named _ member
      rw [Call.specsFor, if_neg]
      rintro rfl
      exact Bool.false_ne_true (free.symm.trans cut)

theorem free_of_sameCounts (named : ∀ call ∈ calls, call.named)
    (counts : SameCounts calls collections) :
    ∀ col ∈ collections, Free col := by
  intro col member
  obtain ⟨docs, specs⟩ := counts col.name
  constructor
  · intro some
    rw [Bool.eq_false_iff]
    intro cut
    rw [insertedDocs_of_cut named cut] at docs
    have none := List.flatMap_eq_nil_iff.mp (List.length_eq_zero_iff.mp docs.symm) col member
    rw [Collection.docsFor, if_pos rfl] at none
    exact some none
  · intro some
    rw [Bool.eq_false_iff]
    intro cut
    rw [createdSpecs_of_cut named cut] at specs
    have none := List.flatMap_eq_nil_iff.mp (List.length_eq_zero_iff.mp specs.symm) col member
    rw [Collection.specsFor, if_pos rfl] at none
    exact some none

/-! ### The dump of a database -/

theorem readLines_comments (json : ExtJSON Doc) (state : ReadState Doc) {lines : List String}
    (comments : ∀ line ∈ lines, IsComment line)
    (fits : ∀ line ∈ lines, line.utf8ByteSize < mongoMaxLineBytes) :
    readLines json state lines = ([], some state) := by
  induction lines with
  | nil => rfl
  | cons line rest ih =>
    rw [readLines_cons_of_ok (fits line List.mem_cons_self)
      (readLine_of_isComment json state (comments line List.mem_cons_self)),
      ih (List.forall_mem_cons.mp comments).2
        (List.forall_mem_cons.mp fits).2]
    rfl

theorem restoreCalls_dump (json : ExtJSON Doc) (banner : Banner)
    (nameLines : ∀ col ∈ collections, OneLine col.name) :
    restoreCalls json (dump json banner collections) =
      (readLines json {} (collectionsLines json collections)).1 := by
  rw [restoreCalls, textLines_dumpText json banner nameLines,
    readLines_append_of_some
      (readLines_comments json {} (isComment_banner banner) banner.fits)]
  rfl

/-- As much arrives as was dumped exactly if the dump is legible, and it is
then what was dumped. -/
theorem sameCounts_iff_legible (banner : Banner)
    (nameLines : ∀ col ∈ collections, OneLine col.name)
    (readBack : ∀ col ∈ collections, SpecsReadBack json.toExtJSON col) :
    SameCounts (restoreCalls json.toExtJSON (dump json.toExtJSON banner collections)) collections ↔
      Legible json.toExtJSON collections := by
  have startFree : contains "" ".insertMany" = false := by decide
  rw [restoreCalls_dump json.toExtJSON banner nameLines]
  constructor
  · intro counts
    exact legible_of_sameCounts json {} readBack
      (free_of_sameCounts (readLines_named _ _ startFree) counts) counts
  · intro legible
    exact (delivers_of_legible json {} readBack legible).sameCounts

theorem delivers_dump (banner : Banner)  (nameLines : ∀ col ∈ collections, OneLine col.name)
    (readBack : ∀ col ∈ collections, SpecsReadBack json.toExtJSON col)
    (legible : Legible json.toExtJSON collections) :
    Delivers (restoreCalls json.toExtJSON (dump json.toExtJSON banner collections)) collections := by
  rw [restoreCalls_dump json.toExtJSON banner nameLines]
  exact delivers_of_legible json {} readBack legible

end DbBackup.Engine.Mongo
