import DbBackup.Lib.Trail
import DbBackup.Storage.Sidecar

/-!
Owns the chain part of `cmdRestore` in `cmd/dbb/restore.go`: the loop that
builds `order` from the selected file back over its sidecars, and the two ways
the files of `order` are restored (one after the other, or handed as a whole to
an engine with its own `RestoreChain`, which only InfluxDB has).

Contract: the exact storages on which a restore replays a whole chain or stops
before it writes. The loop follows at most 64 links, takes an unreadable
sidecar for the start of a chain and cuts `.json` off a `Base`, and none of
this is an error.

Downloading and opening a file is one test (`fetch`; the last file alone gets
the compression hint of the command line), and so is `RestoreTo`; both are
parameters. Does not own the opening of a file.
-/

set_option linter.all false

namespace DbBackup.Restore

open Lib.GoString Lib.LinkGraph Storage

/-! ### The order -/

/-- The base the loop sees for `cur`. -/
def restoreBase (read : String → Option Sidecar) (file basePath cur : String) : String :=
  let base :=
    if cur = file ∧ basePath ≠ "" then basePath
    else ((read cur).map Sidecar.base).getD ""
  trimSuffix base ".json"

/-- `none` is the loop's `break`. -/
def baseLink (read : String → Option Sidecar) (file basePath cur : String) : Option String :=
  let base := restoreBase read file basePath cur
  if base = "" ∨ base = cur then none else some base

def orderLoop (next : String → Option String) : Nat → String → List String → List String
  | 0, _, order => order
  | rounds + 1, cur, order =>
    match next cur with
    | none => order
    | some base => orderLoop next rounds base (base :: order)

def restoreOrder (read : String → Option Sidecar) (file basePath : String) : List String :=
  orderLoop (baseLink read file basePath) 64 file [file]

theorem orderLoop_eq (next : String → Option String) (rounds : Nat) (cur : String)
    (order : List String) :
    orderLoop next rounds cur (cur :: order) = (trail next rounds cur).reverse ++ order := by
  induction rounds generalizing cur order with
  | zero => simp [orderLoop, trail]
  | succ rounds ih =>
    unfold orderLoop trail
    cases next cur with
    | none => simp
    | some base => simp [ih]

theorem restoreOrder_eq (read : String → Option Sidecar) (file basePath : String) :
    restoreOrder read file basePath = (trail (baseLink read file basePath) 64 file).reverse := by
  unfold restoreOrder
  rw [orderLoop_eq, List.append_nil]

/-! ### The restore -/

/-- What `RestoreChain` finds in the decoded files. -/
structure ChainEngine where
  isTar : String → Bool
  merges : List String → Bool

structure RestoreEnv where
  read : String → Option Sidecar
  fetch : Bool → String → Bool
  restoreTo : String → Bool
  chainEngine : Option ChainEngine := none

/-- `written` holds the files whose content `RestoreTo` was given. -/
structure Outcome where
  failed : Bool
  written : List String
deriving DecidableEq

def writeAll (restoreTo : String → Bool) : List String → List String → Outcome
  | [], written => ⟨false, written⟩
  | gf :: rest, written =>
    if restoreTo gf then writeAll restoreTo rest (written ++ [gf])
    else ⟨true, written ++ [gf]⟩

/-- `rest = []` is `isMain`. -/
def restoreLoop (env : RestoreEnv) : List String → List String → Outcome
  | [], written => ⟨false, written⟩
  | gf :: rest, written =>
    if !env.fetch (rest = []) gf then ⟨true, written⟩
    else if env.restoreTo gf then restoreLoop env rest (written ++ [gf])
    else ⟨true, written ++ [gf]⟩

def fetchAll (env : RestoreEnv) : List String → Bool
  | [] => true
  | gf :: rest => env.fetch (rest = []) gf && fetchAll env rest

/-- The closure `restoreChain` with InfluxDB's `RestoreChain` inlined. A merged
physical chain is one restore of all files. -/
def restoreChain (env : RestoreEnv) (engine : ChainEngine) (order : List String) : Outcome :=
  if !fetchAll env order then ⟨true, []⟩
  else if order.any engine.isTar && !order.all engine.isTar then ⟨true, []⟩
  else if order.all engine.isTar then
    if !engine.merges order then ⟨true, []⟩
    else ⟨!env.restoreTo "merged chain", order⟩
  else writeAll env.restoreTo order []

def restoreFiles (env : RestoreEnv) (order : List String) : Outcome :=
  match env.chainEngine with
  | some engine => restoreChain env engine order
  | none => restoreLoop env order []

def cmdRestore (env : RestoreEnv) (file basePath : String) : Outcome :=
  restoreFiles env (restoreOrder env.read file basePath)

/-! ### Whole chains -/

/-- `child`'s sidecar names `parent`. An empty `Base` names nothing. -/
def HasBase (read : String → Option Sidecar) (child parent : String) : Prop :=
  ∃ sidecar, read child = some sidecar ∧ sidecar.base = parent ∧ parent ≠ ""

/-- A chain from a backup without a base to `file`, oldest first. -/
structure IsWholeChain (read : String → Option Sidecar) (file : String) (order : List String) :
    Prop where
  last : order.getLast? = some file
  nodup : order.Nodup
  linked : order.IsChain fun parent child => HasBase read child parent
  first : ∃ root sidecar, order.head? = some root ∧ read root = some sidecar ∧ sidecar.base = ""

/-- The `Base` texts of a chain are the names they mean. -/
def PlainBases (read : String → Option Sidecar) (order : List String) : Prop :=
  ∀ gf ∈ order, ∀ sidecar, read gf = some sidecar → hasSuffix sidecar.base ".json" = false

/-- A restore of these files stops before `RestoreTo` gets any of them. -/
def StopsBeforeWriting (env : RestoreEnv) (order : List String) : Prop :=
  match env.chainEngine with
  | some engine =>
    fetchAll env order = false ∨
      ((∃ gf ∈ order, engine.isTar gf = true) ∧ ∃ gf ∈ order, engine.isTar gf = false) ∨
      ((∀ gf ∈ order, engine.isTar gf = true) ∧ engine.merges order = false)
  | none => ∃ oldest, order.head? = some oldest ∧ env.fetch (order.length = 1) oldest = false

/-! ### The order of a whole chain -/

section Chain

variable {read : String → Option Sidecar} {file : String}

theorem baseLink_of_hasBase {child parent : String} (base : HasBase read child parent)
    (plain : hasSuffix parent ".json" = false) (other : parent ≠ child) :
    baseLink read file "" child = some parent := by
  obtain ⟨sidecar, readable, rfl, notEmpty⟩ := base
  simp [baseLink, restoreBase, readable, trimSuffix_of_not_hasSuffix plain, notEmpty, other]

theorem baseLink_of_root {root : String} {sidecar : Sidecar} (readable : read root = some sidecar)
    (noBase : sidecar.base = "") : baseLink read file "" root = none := by
  have nothingToTrim : trimSuffix "" ".json" = "" := by decide
  simp [baseLink, restoreBase, readable, noBase, nothingToTrim]

/-- The link of a file whose sidecar names a base is that name without `.json`. -/
theorem trimSuffix_of_baseLink {child parent named : String}
    (link : baseLink read file "" child = some parent) (base : HasBase read child named) :
    trimSuffix named ".json" = parent := by
  obtain ⟨sidecar, readable, rfl, _⟩ := base
  simp only [baseLink, restoreBase, readable, ne_eq, not_true_eq_false, and_false, ↓reduceIte,
    Option.map_some, Option.getD_some] at link
  split at link
  · exact absurd link (by simp)
  · exact Option.some.inj link

/-- A whole chain of at most 65 files is found as it stands. -/
theorem restoreOrder_of_isWholeChain {chain : List String} (whole : IsWholeChain read file chain)
    (plain : PlainBases read chain) (short : chain.length ≤ 65) :
    restoreOrder read file "" = chain := by
  have linked : chain.reverse.IsChain (Link (baseLink read file "")) := by
    rw [List.isChain_reverse, List.isChain_iff_forall_rel_of_append_cons_cons]
    intro parent child before after split
    have base := List.isChain_iff_forall_rel_of_append_cons_cons.mp whole.linked split
    have childMember : child ∈ chain := by simp [split]
    have other : parent ≠ child := by
      have nodup := whole.nodup
      rw [split, List.nodup_append, List.nodup_cons] at nodup
      intro same
      exact nodup.2.1.1 (same ▸ List.mem_cons_self)
    have parentPlain : hasSuffix parent ".json" = false := by
      obtain ⟨sidecar, readable, isParent, _⟩ := base
      rw [← isParent]
      exact plain child childMember sidecar readable
    exact baseLink_of_hasBase base parentPlain other
  have isTrail : IsTrail (baseLink read file "") 64 file chain.reverse := by
    refine ⟨?_, linked, by simpa using short, .inr ?_⟩
    · rw [List.head?_reverse]
      exact whole.last
    · obtain ⟨root, sidecar, isFirst, readable, noBase⟩ := whole.first
      exact ⟨root, by rw [List.getLast?_reverse]; exact isFirst, baseLink_of_root readable noBase⟩
  rw [restoreOrder_eq, ← isTrail.eq_trail, List.reverse_reverse]

theorem restoreOrder_isTrail (read : String → Option Sidecar) (file basePath : String) :
    IsTrail (baseLink read file basePath) 64 file (restoreOrder read file basePath).reverse := by
  rw [restoreOrder_eq, List.reverse_reverse]
  exact isTrail_trail _ _ _

theorem restoreOrder_ne_nil (read : String → Option Sidecar) (file basePath : String) :
    restoreOrder read file basePath ≠ [] := by
  intro empty
  have starts := (restoreOrder_isTrail read file basePath).starts
  rw [empty] at starts
  exact absurd starts (by simp)

/-- Where the order is a whole chain, no `Base` on it was cut. -/
theorem plainBases_of_isWholeChain (whole : IsWholeChain read file (restoreOrder read file "")) :
    PlainBases read (restoreOrder read file "") := by
  have links := (restoreOrder_isTrail read file "").linked
  rw [List.isChain_reverse] at links
  intro gf member sidecar readable
  obtain ⟨before, after, split⟩ := List.append_of_mem member
  rcases List.eq_nil_or_concat before with isHead | ⟨older, parent, shape⟩
  · obtain ⟨root, rootSidecar, isFirst, rootReadable, noBase⟩ := whole.first
    rw [split, isHead, List.nil_append, List.head?_cons] at isFirst
    rw [← Option.some.inj isFirst, readable] at rootReadable
    rw [Option.some.inj rootReadable, noBase]
    decide
  · rw [shape, List.concat_eq_append, List.append_assoc, List.singleton_append] at split
    have base := List.isChain_iff_forall_rel_of_append_cons_cons.mp whole.linked split
    have link := List.isChain_iff_forall_rel_of_append_cons_cons.mp links split
    have uncut := trimSuffix_of_baseLink link base
    obtain ⟨named, namedReadable, isParent, _⟩ := base
    rw [readable] at namedReadable
    rw [Option.some.inj namedReadable, isParent]
    exact hasSuffix_of_trimSuffix_eq (by decide) uncut

theorem isWholeChain_restoreOrder_iff :
    IsWholeChain read file (restoreOrder read file "") ↔
      ∃ chain, IsWholeChain read file chain ∧ PlainBases read chain ∧ chain.length ≤ 65 := by
  constructor
  · intro whole
    refine ⟨_, whole, plainBases_of_isWholeChain whole, ?_⟩
    simpa using (restoreOrder_isTrail read file "").short
  · intro ⟨chain, whole, plain, short⟩
    rw [restoreOrder_of_isWholeChain whole plain short]
    exact whole

end Chain

/-! ### Stopping early -/

theorem writeAll_written (restoreTo : String → Bool) (files written : List String) :
    written <+: (writeAll restoreTo files written).written := by
  induction files generalizing written with
  | nil => exact List.prefix_refl _
  | cons gf rest ih =>
    unfold writeAll
    split
    · exact (List.prefix_append _ _).trans (ih _)
    · exact List.prefix_append _ _

variable (env : RestoreEnv)

theorem restoreLoop_written (files written : List String) :
    written <+: (restoreLoop env files written).written := by
  induction files generalizing written with
  | nil => exact List.prefix_refl _
  | cons gf rest ih =>
    unfold restoreLoop
    split
    · exact List.prefix_refl _
    · split
      · exact (List.prefix_append _ _).trans (ih _)
      · exact List.prefix_append _ _

theorem ne_nil_of_append_prefix {written result : List String} {gf : String}
    (initial : written ++ [gf] <+: result) : result ≠ [] := by
  intro empty
  rw [empty] at initial
  simpa using List.prefix_nil.mp initial

theorem restoreLoop_stops_iff (gf : String) (rest : List String) :
    ((restoreLoop env (gf :: rest) []).failed = true ∧
        (restoreLoop env (gf :: rest) []).written = []) ↔
      env.fetch (rest = []) gf = false := by
  unfold restoreLoop
  by_cases fetched : env.fetch (rest = []) gf = true
  · simp only [fetched, Bool.not_true, Bool.false_eq_true, ↓reduceIte, Bool.true_eq_false,
      iff_false, not_and]
    intro _
    split
    · exact ne_nil_of_append_prefix (restoreLoop_written env rest _)
    · simp
  · simp [fetched]

theorem restoreChain_stops_iff (engine : ChainEngine) {order : List String}
    (nonempty : order ≠ []) :
    ((restoreChain env engine order).failed = true ∧
        (restoreChain env engine order).written = []) ↔
      fetchAll env order = false ∨
        ((∃ gf ∈ order, engine.isTar gf = true) ∧ ∃ gf ∈ order, engine.isTar gf = false) ∨
        ((∀ gf ∈ order, engine.isTar gf = true) ∧ engine.merges order = false) := by
  obtain ⟨oldest, rest, rfl⟩ := List.exists_cons_of_ne_nil nonempty
  have writes : (writeAll env.restoreTo (oldest :: rest) []).written ≠ [] := by
    unfold writeAll
    split
    · exact ne_nil_of_append_prefix (writeAll_written env.restoreTo rest _)
    · simp
  have someTar : (∃ gf ∈ oldest :: rest, engine.isTar gf = true) ↔
      (oldest :: rest).any engine.isTar = true := by rw [List.any_eq_true]
  have someOther : (∃ gf ∈ oldest :: rest, engine.isTar gf = false) ↔
      (oldest :: rest).all engine.isTar = false := by
    rw [List.all_eq_false]
    simp
  have allTar : (∀ gf ∈ oldest :: rest, engine.isTar gf = true) ↔
      (oldest :: rest).all engine.isTar = true := by rw [List.all_eq_true]
  rw [someTar, someOther, allTar]
  unfold restoreChain
  generalize (oldest :: rest).any engine.isTar = anyTar
  generalize (oldest :: rest).all engine.isTar = everyTar
  generalize engine.merges (oldest :: rest) = merges
  generalize fetchAll env (oldest :: rest) = fetched
  cases fetched <;> cases anyTar <;> cases everyTar <;> cases merges <;> simp [writes]

theorem restoreFiles_stops_iff {order : List String} (nonempty : order ≠ []) :
    ((restoreFiles env order).failed = true ∧ (restoreFiles env order).written = []) ↔
      StopsBeforeWriting env order := by
  unfold restoreFiles StopsBeforeWriting
  cases env.chainEngine with
  | some engine => exact restoreChain_stops_iff env engine nonempty
  | none =>
    obtain ⟨oldest, rest, rfl⟩ := List.exists_cons_of_ne_nil nonempty
    simp only [restoreLoop_stops_iff, List.head?_cons, Option.some.injEq, List.length_cons,
      Nat.add_eq_right, List.length_eq_zero_iff]
    constructor
    · intro missing
      exact ⟨oldest, rfl, missing⟩
    · intro ⟨found, isOldest, missing⟩
      rwa [← isOldest] at missing

/-- The order is the whole chain, or the restore stops with an error before any
data is written. -/
def RestoresWholeOrStops (env : RestoreEnv) (file : String) : Prop :=
  IsWholeChain env.read file (restoreOrder env.read file "") ∨
    ((cmdRestore env file "").failed = true ∧ (cmdRestore env file "").written = [])

/-- **When a restore is whole.** Exactly for chains of at most 65 files whose
sidecars are all readable, name each other literally and end in an empty `Base`,
and otherwise only when the files the walk does reach cannot be restored at
all. -/
theorem restoresWholeOrStops_iff (env : RestoreEnv) (file : String) :
    RestoresWholeOrStops env file ↔
      (∃ chain, IsWholeChain env.read file chain ∧ PlainBases env.read chain ∧
          chain.length ≤ 65) ∨
        ∃ walk, IsTrail (baseLink env.read file "") 64 file walk.reverse ∧
          StopsBeforeWriting env walk := by
  unfold RestoresWholeOrStops cmdRestore
  rw [isWholeChain_restoreOrder_iff,
    restoreFiles_stops_iff env (restoreOrder_ne_nil env.read file "")]
  have walkUnique : (∃ walk, IsTrail (baseLink env.read file "") 64 file walk.reverse ∧
      StopsBeforeWriting env walk) ↔
      StopsBeforeWriting env (restoreOrder env.read file "") := by
    constructor
    · intro ⟨walk, isTrail, stops⟩
      have isOrder : walk = restoreOrder env.read file "" := by
        rw [restoreOrder_eq, ← isTrail.eq_trail, List.reverse_reverse]
      exact isOrder ▸ stops
    · intro stops
      exact ⟨_, restoreOrder_isTrail env.read file "", stops⟩
  rw [walkUnique]

/-- Full, two increments; the sidecar of the first increment is lost. -/
def lostSidecarEnv : RestoreEnv where
  read name :=
    if name = "mysql-app-db-full-20240101-000000.sql" then some { strategy := "full" }
    else if name = "mysql-app-db-incr-20240103-000000.sql" then
      some { strategy := "incremental", base := "mysql-app-db-incr-20240102-000000.sql" }
    else none
  fetch _ _ := true
  restoreTo _ := true

/-- The full backup is left out and the restore reports success. -/
theorem restore_truncates_chain :
    cmdRestore lostSidecarEnv "mysql-app-db-incr-20240103-000000.sql" "" =
        ⟨false, ["mysql-app-db-incr-20240102-000000.sql",
          "mysql-app-db-incr-20240103-000000.sql"]⟩ ∧
      ¬ RestoresWholeOrStops lostSidecarEnv "mysql-app-db-incr-20240103-000000.sql" := by
  have order : restoreOrder lostSidecarEnv.read "mysql-app-db-incr-20240103-000000.sql" "" =
      ["mysql-app-db-incr-20240102-000000.sql", "mysql-app-db-incr-20240103-000000.sql"] := by
    decide
  have outcome : cmdRestore lostSidecarEnv "mysql-app-db-incr-20240103-000000.sql" "" =
      ⟨false, ["mysql-app-db-incr-20240102-000000.sql",
        "mysql-app-db-incr-20240103-000000.sql"]⟩ := by
    unfold cmdRestore
    rw [order]
    decide
  refine ⟨outcome, ?_⟩
  intro holds
  unfold RestoresWholeOrStops at holds
  rw [order, outcome] at holds
  rcases holds with whole | ⟨failed, _⟩
  · obtain ⟨root, sidecar, isFirst, readable, _⟩ := whole.first
    have lost : lostSidecarEnv.read "mysql-app-db-incr-20240102-000000.sql" = none := by decide
    rw [← Option.some.inj isFirst, lost] at readable
    exact absurd readable (by simp)
  · exact absurd failed (by decide)

end DbBackup.Restore
