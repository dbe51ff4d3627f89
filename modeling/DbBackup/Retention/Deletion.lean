import DbBackup.Storage.Backends
import DbBackup.Storage.Sidecar

/-!
Owns the deletion of backups: `DeleteBackupsWithContext`
(`internal/retention/retention.go`) on the `Delete` of every backend
(`internal/storage/storage.go`, `s3.go`, `webdav.go`,
`supported/storage/backend/azure.go`, `gcs.go`).

Contract: what is listed is gone afterwards on every backend
(`gone_deleteBackups`). Success is reported for backups without checksum files
exactly on S3, and on a filesystem unless a name is reached twice
(`reportsTruthfully_iff`): a missing object of the other stores is an error that
`os.IsNotExist` does not know.

A storage is the list of the places that hold an object; the place of a name is
the backend's own. No request fails on its way, and no context is cancelled.
-/

set_option linter.all false

namespace DbBackup.Retention.Deletion

open Storage

variable {κ : Type} [DecidableEq κ]

/-! ### Backends -/

inductive Backend where
  | filesystem
  | s3
  | azure
  | gcs
  | webdav
deriving DecidableEq

inductive DeleteError where
  | notExist
  | status (code : Nat)
deriving DecidableEq

/-- `os.IsNotExist`, which looks at errors of the operating system only. -/
def isNotExist (error : DeleteError) : Bool := error = .notExist

def isRetryableStatus (code : Nat) : Bool := code = 429 || 500 ≤ code

def remove (store : List κ) (place : κ) : List κ := store.filter (· ≠ place)

/-- The status a `DELETE` is answered with. -/
def serverStatus (backend : Backend) (there : Bool) : Nat :=
  match backend with
  | .s3 => 204
  | .azure => if there then 202 else 404
  | _ => if there then 204 else 404

/-- The status that is taken for success. -/
def accepts (backend : Backend) (code : Nat) : Bool :=
  match backend with
  | .azure => code = 202 || code = 204
  | .webdav => code < 300
  | _ => code = 200 || code = 204

/-- The attempts of `Delete` on a server. -/
def requestDelete (backend : Backend) (place : κ) :
    Nat → Option DeleteError → List κ → Option DeleteError × List κ
  | 0, last, store => (last, store)
  | attempts + 1, _, store =>
    let code := serverStatus backend (store.contains place)
    let after := remove store place
    if accepts backend code then (none, after)
    else if isRetryableStatus code then
      requestDelete backend place attempts (some (.status code)) after
    else (some (.status code), after)

def delete (backend : Backend) (store : List κ) (place : κ) : Option DeleteError × List κ :=
  match backend with
  | .filesystem => if place ∈ store then (none, remove store place) else (some .notExist, store)
  | _ => requestDelete backend place 3 none store

/-! ### Deleting backups -/

/-- The errors of one name, with the store afterwards. -/
def deleteNamed (backend : Backend) (location : String → κ) (ignored : DeleteError → Bool)
    (store : List κ) (name : String) : List (String × DeleteError) × List κ :=
  match delete backend store (location name) with
  | (some error, after) => (if ignored error then [] else [(name, error)], after)
  | (none, after) => ([], after)

def deleteBackup (backend : Backend) (location : String → κ) (store : List κ) (f : String) :
    List (String × DeleteError) × List κ :=
  let file := deleteNamed backend location (fun _ => false) store f
  let sidecar := deleteNamed backend location isNotExist file.2 (sidecarName f)
  let md5 := deleteNamed backend location isNotExist sidecar.2 (f ++ ".md5")
  let sha1 := deleteNamed backend location isNotExist md5.2 (f ++ ".sha1")
  (file.1 ++ sidecar.1 ++ md5.1 ++ sha1.1, sha1.2)

/-- `DeleteBackupsWithContext`: the errors, none for success, and the store. -/
def deleteBackups (backend : Backend) (location : String → κ) :
    List κ → List String → List (String × DeleteError) × List κ
  | store, [] => ([], store)
  | store, f :: rest =>
    let first := deleteBackup backend location store f
    let later := deleteBackups backend location first.2 rest
    (first.1 ++ later.1, later.2)

/-- The listed backups are there with their sidecars, and without checksum files. -/
structure Listed (location : String → κ) (store : List κ) (names : List String) : Prop where
  backup : ∀ f ∈ names, location f ∈ store
  sidecar : ∀ f ∈ names, location (sidecarName f) ∈ store
  md5 : ∀ f ∈ names, location (f ++ ".md5") ∉ store
  sha1 : ∀ f ∈ names, location (f ++ ".sha1") ∉ store

/-- Everything is deleted without an error, and an error means that something is
left. -/
def ReportsTruthfully (location : String → κ) (names : List String)
    (result : List (String × DeleteError) × List κ) : Prop :=
  ((∀ f ∈ names, location f ∉ result.2 ∧ location (sidecarName f) ∉ result.2) ∧ result.1 = []) ∧
    (result.1 ≠ [] → ∃ f ∈ names, location f ∈ result.2 ∨ location (sidecarName f) ∈ result.2)

/-! ### One deletion -/

variable {store : List κ}

theorem mem_remove {place other : κ} :
    other ∈ remove store place ↔ other ∈ store ∧ other ≠ place := by
  simp [remove]

theorem remove_of_not_mem {place : κ} (absent : place ∉ store) : remove store place = store := by
  unfold remove
  rw [List.filter_eq_self]
  intro other isIn
  exact decide_eq_true fun same => absent (same ▸ isIn)

/-- Whatever the backend answers, the place is empty afterwards, and no other is
touched. -/
theorem delete_store (backend : Backend) (store : List κ) (place : κ) :
    (delete backend store place).2 = remove store place := by
  cases backend with
  | filesystem =>
    by_cases there : place ∈ store
    · simp [delete, there]
    · simp [delete, there, remove_of_not_mem]
  | s3 | azure | gcs | webdav =>
    by_cases there : place ∈ store <;>
      simp [delete, requestDelete, serverStatus, accepts, isRetryableStatus, there]

theorem delete_there {backend : Backend} {store : List κ} {place : κ} (there : place ∈ store) :
    (delete backend store place).1 = none := by
  cases backend <;> simp [delete, requestDelete, serverStatus, accepts, there]

/-- What a backend says of an object that is not there. -/
def missing : Backend → Option DeleteError
  | .filesystem => some .notExist
  | .s3 => none
  | _ => some (.status 404)

theorem delete_missing {backend : Backend} {store : List κ} {place : κ} (absent : place ∉ store) :
    (delete backend store place).1 = missing backend := by
  cases backend <;>
    simp [delete, requestDelete, serverStatus, accepts, isRetryableStatus, missing, absent]

theorem deleteNamed_store (backend : Backend) (location : String → κ) (ignored : DeleteError → Bool)
    (store : List κ) (name : String) :
    (deleteNamed backend location ignored store name).2 = remove store (location name) := by
  rw [← delete_store backend]
  unfold deleteNamed
  split <;> next result => rw [result]

variable {backend : Backend}

theorem deleteNamed_there {location : String → κ} {ignored : DeleteError → Bool}
    {name : String} (there : location name ∈ store) :
    (deleteNamed backend location ignored store name).1 = [] := by
  have none := @delete_there _ _ backend _ _ there
  unfold deleteNamed
  split
  · next result => simp [result] at none
  · rfl

theorem deleteNamed_missing {location : String → κ} {ignored : DeleteError → Bool}
    {name : String} (absent : location name ∉ store) :
    (deleteNamed backend location ignored store name).1 =
      ((missing backend).toList.filter fun error => !ignored error).map fun error => (name, error) := by
  have said := @delete_missing _ _ backend _ _ absent
  unfold deleteNamed
  split
  · next error _ result =>
      rw [result] at said
      rw [← said]
      cases known : ignored error <;> simp [known]
  · next result =>
      rw [result] at said
      rw [← said]
      rfl

theorem deleteNamed_s3 (location : String → κ) (ignored : DeleteError → Bool) (store : List κ)
    (name : String) : (deleteNamed .s3 location ignored store name).1 = [] := by
  by_cases there : location name ∈ store
  · exact deleteNamed_there there
  · rw [deleteNamed_missing there]
    rfl

/-- On a filesystem a missing companion is not an error. -/
theorem deleteNamed_companion (location : String → κ) (store : List κ) (name : String) :
    (deleteNamed .filesystem location isNotExist store name).1 = [] := by
  by_cases there : location name ∈ store
  · exact deleteNamed_there there
  · rw [deleteNamed_missing there]
    rfl

/-! ### A list of backups -/

theorem mem_deleteBackup {location : String → κ} {f : String} {place : κ} :
    place ∈ (deleteBackup backend location store f).2 ↔
      place ∈ store ∧ place ≠ location f ∧ place ≠ location (sidecarName f) ∧
        place ≠ location (f ++ ".md5") ∧ place ≠ location (f ++ ".sha1") := by
  simp only [deleteBackup, deleteNamed_store, mem_remove, and_assoc]

theorem deleteBackup_ok_iff {location : String → κ} {f : String}
    (noMd5 : location (f ++ ".md5") ∉ store) :
    (deleteBackup backend location store f).1 = [] ↔
      backend = .s3 ∨ backend = .filesystem ∧ location f ∈ store := by
  unfold deleteBackup
  dsimp only
  -- the checksum file is missing whatever was deleted before it
  have absent : location (f ++ ".md5") ∉ (deleteNamed backend location isNotExist
      (deleteNamed backend location (fun _ => false) store f).2 (sidecarName f)).2 := by
    rw [deleteNamed_store, deleteNamed_store]
    exact fun kept => noMd5 (mem_remove.mp (mem_remove.mp kept).1).1
  cases backend with
  | s3 => simp [deleteNamed_s3]
  | filesystem =>
    simp only [deleteNamed_companion, List.append_nil]
    by_cases there : location f ∈ store
    · simp [deleteNamed_there there, there]
    · simp [deleteNamed_missing there, there, missing]
  | azure | gcs | webdav => simp [deleteNamed_missing absent, missing, isNotExist]

/-- What is listed is gone, and nothing is added. -/
theorem gone_deleteBackups (backend : Backend) (location : String → κ) (names : List String)
    (store : List κ) :
    (∀ place ∈ (deleteBackups backend location store names).2, place ∈ store) ∧
      ∀ f ∈ names, location f ∉ (deleteBackups backend location store names).2 ∧
        location (sidecarName f) ∉ (deleteBackups backend location store names).2 := by
  induction names generalizing store with
  | nil => exact ⟨fun _ kept => kept, fun _ none => absurd none List.not_mem_nil⟩
  | cons first rest ih =>
    obtain ⟨within, gone⟩ := ih (deleteBackup backend location store first).2
    refine ⟨fun place kept => (mem_deleteBackup.mp (within place kept)).1, fun f isIn => ?_⟩
    rcases List.mem_cons.mp isIn with rfl | later
    · exact ⟨fun kept => (mem_deleteBackup.mp (within _ kept)).2.1 rfl,
        fun kept => (mem_deleteBackup.mp (within _ kept)).2.2.1 rfl⟩
    · exact gone f later

/-- No name is reached after its file has been deleted for another. -/
def Apart (location : String → κ) (names : List String) : Prop :=
  names.Pairwise fun first later =>
    location later ≠ location first ∧ location later ≠ location (sidecarName first)

theorem deleteBackups_ok_iff {backend : Backend} {location : String → κ} {names : List String}
    {store : List κ} (noMd5 : ∀ f ∈ names, location (f ++ ".md5") ∉ store)
    (noSha1 : ∀ f ∈ names, location (f ++ ".sha1") ∉ store) :
    (deleteBackups backend location store names).1 = [] ↔
      backend = .s3 ∨ names = [] ∨
        backend = .filesystem ∧ (∀ f ∈ names, location f ∈ store) ∧ Apart location names := by
  induction names generalizing store with
  | nil => simp [deleteBackups]
  | cons first rest ih =>
    have smaller (place : κ) (absent : place ∉ store) :
        place ∉ (deleteBackup backend location store first).2 :=
      fun kept => absent (mem_deleteBackup.mp kept).1
    have later := @ih (deleteBackup backend location store first).2
      (fun f isIn => smaller _ (noMd5 f (List.mem_cons_of_mem _ isIn)))
      (fun f isIn => smaller _ (noSha1 f (List.mem_cons_of_mem _ isIn)))
    have firstMd5 := noMd5 first List.mem_cons_self
    have firstSha1 := noSha1 first List.mem_cons_self
    simp only [deleteBackups, List.append_eq_nil_iff, deleteBackup_ok_iff firstMd5, later]
    cases backend with
    | s3 => simp
    | azure | gcs | webdav => simp
    | filesystem =>
      simp only [reduceCtorEq, false_or, true_and, List.cons_ne_nil, List.forall_mem_cons, Apart,
        List.pairwise_cons]
      constructor
      · rintro ⟨there, done⟩
        rcases done with rfl | ⟨others, apart⟩
        · simp [there]
        · refine ⟨⟨there, fun f isIn => (mem_deleteBackup.mp (others f isIn)).1⟩,
            fun f isIn => ?_, apart⟩
          have kept := (mem_deleteBackup.mp (others f isIn)).2
          exact ⟨kept.1, kept.2.1⟩
      · rintro ⟨⟨there, others⟩, separate, apart⟩
        refine ⟨there, Or.inr ⟨fun f isIn => ?_, apart⟩⟩
        have held := others f isIn
        exact mem_deleteBackup.mpr ⟨held, (separate f isIn).1, (separate f isIn).2,
          fun same => firstMd5 (same ▸ held), fun same => firstSha1 (same ▸ held)⟩

/-- Success is reported for what was deleted exactly on S3, for no backups at all,
and on a filesystem where no listed name is another one's file or sidecar. -/
theorem reportsTruthfully_iff {backend : Backend} {location : String → κ} {store : List κ}
    {names : List String} (listed : Listed location store names) :
    ReportsTruthfully location names (deleteBackups backend location store names) ↔
      backend = .s3 ∨ names = [] ∨ backend = .filesystem ∧ Apart location names := by
  have gone := (gone_deleteBackups backend location names store).2
  have ok := @deleteBackups_ok_iff _ _ backend _ _ _ listed.md5 listed.sha1
  have success : ReportsTruthfully location names (deleteBackups backend location store names) ↔
      (deleteBackups backend location store names).1 = [] :=
    ⟨fun truthful => truthful.1.2, fun none => ⟨⟨gone, none⟩, fun some => absurd none some⟩⟩
  rw [success, ok]
  constructor
  · rintro (isS3 | empty | ⟨onDisk, -, apart⟩)
    · exact Or.inl isS3
    · exact Or.inr (Or.inl empty)
    · exact Or.inr (Or.inr ⟨onDisk, apart⟩)
  · rintro (isS3 | empty | ⟨onDisk, apart⟩)
    · exact Or.inl isS3
    · exact Or.inr (Or.inl empty)
    · exact Or.inr (Or.inr ⟨onDisk, listed.backup, apart⟩)

/-- Where the files of a backup lie on a filesystem. -/
def onDisk (name : String) : String := "/backup/" ++ name

theorem listed_onDisk :
    Listed onDisk ["/backup/app.sql", "/backup/app.sql.json"] ["app.sql"] :=
  ⟨by decide, by decide, by decide, by decide⟩

theorem reportsTruthfully_onDisk :
    ReportsTruthfully onDisk ["app.sql"]
      (deleteBackups .filesystem onDisk ["/backup/app.sql", "/backup/app.sql.json"] ["app.sql"]) :=
  (reportsTruthfully_iff listed_onDisk).mpr
    (Or.inr (Or.inr ⟨rfl, List.pairwise_singleton _ _⟩))

/-- The blob of a name, without a folder. -/
def atBlob (name : String) : List Char := Backends.blobName [] name.toList

/-- On Azure a backup is deleted, and an error is reported for its checksum files. -/
theorem azure_prune_fails :
    Listed atBlob [atBlob "app.sql", atBlob "app.sql.json"] ["app.sql"] ∧
    ¬ ReportsTruthfully atBlob ["app.sql"]
      (deleteBackups .azure atBlob [atBlob "app.sql", atBlob "app.sql.json"] ["app.sql"]) ∧
    deleteBackups .azure atBlob [atBlob "app.sql", atBlob "app.sql.json"] ["app.sql"] =
      ([("app.sql.md5", .status 404), ("app.sql.sha1", .status 404)], []) := by
  have result : deleteBackups .azure atBlob [atBlob "app.sql", atBlob "app.sql.json"] ["app.sql"] =
      ([("app.sql.md5", .status 404), ("app.sql.sha1", .status 404)], []) := by
    decide
  refine ⟨⟨by decide, by decide, by decide, by decide⟩, ?_, result⟩
  rw [result]
  intro truthful
  exact absurd truthful.1.2 (by decide)

end DbBackup.Retention.Deletion
