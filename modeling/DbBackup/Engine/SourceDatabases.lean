import DbBackup.Engine.Couch.Databases
import DbBackup.Engine.Mongo.Databases

/-!
Owns what becomes of several databases in one dump when `Restore` of
`internal/database/engine/mongo/ops.go` or `internal/database/engine/couch/ops.go`
reads it back: the source database only stands in comments, and everything is
written to one target.

Contract: the databases stay apart exactly if at most one of them has anything that
gets written, or CouchDB's restore refuses its target (`separated_iff`).
-/

namespace DbBackup.Engine.SourceDatabases

open Lib.GoString Lib.LineScan Lib.Marked

variable {Doc : Type}

/-- `common.FirstDBName`. -/
def firstDBName (dbName : String) : String :=
  let name := trimSpace (String.ofList (dbName.toList.takeWhile (· ≠ ',')))
  if equalFold name "all" || name = "" then "" else name

/-- The database `Restore` of MongoDB writes to. -/
def mongoTarget (dbName : String) : String :=
  if firstDBName dbName = "" then "admin" else firstDBName dbName

/-- A dump of several databases and the name it is restored to. -/
inductive Restoration (Doc : Type) where
  | mongo (json : Mongo.ExtJSON Doc) (banner : Mongo.Banner)
      (databases : List (Mongo.SourceDatabase Doc)) (dbName : String)
  | couch (json : Couch.JSON) (results : Couch.Results) (banner : Couch.Banner)
      (databases : List Couch.SourceDatabase) (dbName : String)

/-- What is written: the number of the source database, and the target. -/
def Restoration.writes : Restoration Doc → List (Option Nat × String)
  | .mongo json banner databases dbName =>
    (Mongo.restoredFrom json banner databases).map fun call => (call.1, mongoTarget dbName)
  | .couch json results banner databases dbName =>
    (Couch.postedFrom json results dbName banner databases).map fun post => (post.1, dbName)

/-- The restore returns an error before it reads the dump. -/
def Restoration.isRefused : Restoration Doc → Bool
  | .mongo _ _ _ _ => false
  | .couch _ _ _ _ dbName => Couch.refused dbName

/-- Each source database has a target of its own, or the restore is refused. -/
def Separated (restoration : Restoration Doc) : Prop :=
  Apart restoration.writes ∨ restoration.isRefused = true ∧ restoration.writes = []

/-- At most one database has something that gets written, or the target is refused. -/
def OneSource : Restoration Doc → Prop
  | .mongo json _ databases _ => ∀ one other, Mongo.Restored json databases one →
      Mongo.Restored json databases other → one = other
  | .couch json _ banner databases dbName => Couch.refused dbName = true ∨
      ∀ one ∈ Couch.sentDocuments json banner databases,
        ∀ other ∈ Couch.sentDocuments json banner databases, one.1 = other.1

theorem apart_map_iff {α ι Target : Type} (items : List (ι × α)) (target : Target) :
    Apart (items.map fun item => (item.1, target)) ↔
      ∀ one ∈ items, ∀ other ∈ items, one.1 = other.1 := by
  have same : (items.map fun item => (item.1, target)) =
      (items.map Prod.fst).map (·, target) := by
    rw [List.map_map]
    rfl
  rw [same, apart_single_iff]
  simp only [List.forall_mem_map]

theorem mongo_apart_iff (json : Mongo.ExtJSON Doc) (banner : Mongo.Banner)
    (databases : List (Mongo.SourceDatabase Doc)) (dbName : String) :
    Apart (Restoration.mongo json banner databases dbName).writes ↔
      OneSource (.mongo json banner databases dbName) := by
  refine (apart_map_iff _ _).trans ?_
  constructor
  · intro same one other oneRestored otherRestored
    obtain ⟨oneCall, oneMember⟩ :=
      (Mongo.exists_call_iff json banner databases (some one)).mpr ⟨one, rfl, oneRestored⟩
    obtain ⟨otherCall, otherMember⟩ :=
      (Mongo.exists_call_iff json banner databases (some other)).mpr ⟨other, rfl, otherRestored⟩
    exact Option.some.inj (same _ oneMember _ otherMember)
  · rintro oneSource ⟨oneMark, oneCall⟩ oneMember ⟨otherMark, otherCall⟩ otherMember
    obtain ⟨one, rfl, oneRestored⟩ :=
      (Mongo.exists_call_iff json banner databases oneMark).mp ⟨oneCall, oneMember⟩
    obtain ⟨other, rfl, otherRestored⟩ :=
      (Mongo.exists_call_iff json banner databases otherMark).mp ⟨otherCall, otherMember⟩
    exact congrArg some (oneSource one other oneRestored otherRestored)

theorem couch_apart_iff (json : Couch.JSON) (results : Couch.Results) (banner : Couch.Banner)
    (databases : List Couch.SourceDatabase) {dbName : String}
    (accepted : Couch.refused dbName = false) :
    Apart (@Restoration.couch Doc json results banner databases dbName).writes ↔
      ∀ one ∈ Couch.sentDocuments json banner databases,
        ∀ other ∈ Couch.sentDocuments json banner databases, one.1 = other.1 := by
  rw [← Couch.postedFrom_eq json results banner databases accepted]
  exact apart_map_iff _ _

theorem separated_iff (restoration : Restoration Doc) :
    Separated restoration ↔ OneSource restoration := by
  cases restoration with
  | mongo json banner databases dbName =>
    rw [← mongo_apart_iff]
    exact ⟨fun separated => separated.resolve_right fun refused => Bool.false_ne_true refused.1,
      Or.inl⟩
  | couch json results banner databases dbName =>
    cases isRefused : Couch.refused dbName with
    | true =>
      refine iff_of_true (.inr ⟨isRefused, ?_⟩) (.inl isRefused)
      rw [Restoration.writes, Couch.postedFrom_refused json results banner databases isRefused,
        List.map_nil]
    | false =>
      have apart := @couch_apart_iff Doc json results banner databases _ isRefused
      constructor
      · rintro (stayApart | ⟨refused, -⟩)
        · exact .inr (apart.mp stayApart)
        · exact absurd (isRefused.symm.trans refused) (by decide)
      · rintro (refused | oneSource)
        · exact absurd (isRefused.symm.trans refused) (by decide)
        · exact .inl (apart.mpr oneSource)

/-! ### Two databases with a document each -/

def document (id : String) : String := "\x7b\"_id\":\"" ++ id ++ "\"\x7d"

theorem documents_oneLine : OneLine (document "a") ∧ OneLine (document "b") := by decide +kernel

def shop : Couch.SourceDatabase where
  name := "shop"
  docs := [document "a"]
  nameLine := by decide
  docLine := List.forall_mem_singleton.mpr documents_oneLine.1

def blog : Couch.SourceDatabase where
  name := "blog"
  docs := [document "b"]
  nameLine := by decide
  docLine := List.forall_mem_singleton.mpr documents_oneLine.2

def plainTexts : Couch.BannerTexts :=
  { version := "dev", dumped := "2024-05-01T00:00:00Z", detail := "Host: db:5984" }

theorem plainTexts_oneLine : ∀ line ∈ plainTexts.lines, OneLine line := by decide +kernel

def plainBanner : Couch.Banner := { toBannerTexts := plainTexts, oneLine := plainTexts_oneLine }

/-- Every document is stored. -/
def accepting : Couch.Results where
  results _ docs := docs.map fun _ => true
  each _ _ := List.length_map _

theorem sentDocuments_shop_blog :
    Couch.sentDocuments Couch.anyJSON plainBanner [shop, blog] =
      [(some 0, document "a"), (some 1, document "b")] := by
  have lines : Couch.markedLines plainBanner [shop, blog] =
      [(none, "// db-backup | CouchDB | dev"), (none, "// Dumped: 2024-05-01T00:00:00Z"),
        (none, "// Host: db:5984"), (none, "//"), (none, ""),
        (some 0, "// Database: shop"), (some 0, "db.shop.insert(\x7b\"_id\":\"a\"\x7d)"), (some 0, ""),
        (some 1, "// Database: blog"), (some 1, "db.blog.insert(\x7b\"_id\":\"b\"\x7d)"),
        (some 1, "")] := by
    decide +kernel
  unfold Couch.sentDocuments
  rw [← Couch.textLines_dump, ← Couch.map_snd_markedLines, lines]
  simp only [Couch.markedDocuments, Couch.sentCount, Couch.documents, Couch.scannable,
    Couch.readLine, Couch.insertPayload, hasPrefix, hasSuffix, trimSpace, String.toList_ofList]
  decide +kernel

theorem shop_blog_mixed :
    ¬ Separated (@Restoration.couch Unit Couch.anyJSON accepting plainBanner [shop, blog]
      "copy") := by
  have accepted : Couch.refused "copy" = false := by decide
  rintro (apart | ⟨refused, -⟩)
  · have same := (couch_apart_iff Couch.anyJSON accepting plainBanner [shop, blog]
      accepted).mp apart
    rw [sentDocuments_shop_blog] at same
    exact absurd (same _ List.mem_cons_self (some 1, document "b") (by simp)) (by decide)
  · exact absurd (accepted.symm.trans refused) (by decide)

end DbBackup.Engine.SourceDatabases
