import DbBackup.Config.Resolve
import DbBackup.Lib.FirstByKey
import DbBackup.Runner.Filename

/-!
Owns how `Run` divides a job: the word `ALL` (`expandAllInclude`), the globals
split and the loop of `split_db` (`internal/scheduler/runner/all.go`,
`internal/scheduler/runner/runner.go`), up to the names that are handed to the
engine.

Contract: `ALL` covers every database once exactly if no two names differ by case
alone (`expandAllInclude_coversOnce_iff`). The two splits write the list of
databases anew and leave out the filters; when that shows is
`keepsFilters_iff`.

Whether TLS can be set up, whether the databases can be listed and whether the
rest of a run succeeds are answers of the environment. `strings.ToLower` on the
names that are collected is a parameter.

Does not own hooks, chains or the dump itself. A name with `__globals__` in it
stands for the globals of the server, not for a database.
-/

set_option linter.all false

namespace DbBackup.Runner

open DbBackup.Config.Resolve (JobConfig DatabaseList BackupConfig)
open Lib Lib.GoString

/-! ### ALL -/

def isAllToken (name : String) : Bool := equalFold (trimSpace name) "ALL"

def expandAllInclude (lower : String → String) (discovered : List String) (list : DatabaseList) :
    List String :=
  let found := FirstByKey.collect lower [] (discovered.filter fun name => !list.excludes name)
  FirstByKey.collect lower found
    (list.included.filter fun name => !isAllToken name && name ≠ "")

/-- The databases a list with `ALL` asks for. -/
def Wanted (discovered : List String) (list : DatabaseList) (name : String) : Prop :=
  (name ∈ discovered ∧ list.excludes name = false) ∨
    (name ∈ list.included ∧ isAllToken name = false ∧ name ≠ "")

def CoversOnce (discovered : List String) (list : DatabaseList) (out : List String) : Prop :=
  out.Nodup ∧ ∀ name, name ∈ out ↔ Wanted discovered list name

variable {list : DatabaseList} {name : String}

theorem mem_wanted {discovered : List String} :
    name ∈ (discovered.filter fun name => !list.excludes name) ++
        list.included.filter (fun name => !isAllToken name && name ≠ "") ↔
      Wanted discovered list name := by
  simp [Wanted, List.mem_append, List.mem_filter]

/-- `ALL` covers every database once, exactly if no two databases it asks for
share their lower case. -/
theorem expandAllInclude_coversOnce_iff (lower : String → String) (discovered : List String)
    (list : DatabaseList) :
    CoversOnce discovered list (expandAllInclude lower discovered list) ↔
      ∀ one other, Wanted discovered list one → Wanted discovered list other →
        lower one = lower other → one = other := by
  unfold expandAllInclude CoversOnce
  rw [← FirstByKey.collect_append]
  have exact := FirstByKey.collect_exact_iff lower
    ((discovered.filter fun name => !list.excludes name) ++
      list.included.filter fun name => !isAllToken name && name ≠ "")
  simp only [mem_wanted] at exact
  rw [exact]
  constructor
  · intro injective one other isOne isOther same
    exact injective isOne isOther same
  · intro separate one isOne other isOther same
    exact separate one other isOne isOther same

/-- Two databases of a server where names are case sensitive. -/
theorem all_drops_app :
    ¬ CoversOnce ["app", "App"] { included := ["ALL"] }
      (expandAllInclude toLower ["app", "App"] { included := ["ALL"] }) := by
  rintro ⟨-, covers⟩
  have kept := (covers "App").mpr (Or.inl ⟨by decide, by decide⟩)
  exact absurd kept (by decide)

/-! ### Splitting -/

def globalsName : String := "__globals__"

def isGlobals (name : String) : Bool := contains name globalsName

def containsGlobals (names : List String) : Bool := names.any isGlobals

def shouldSplitDatabases (names : List String) : Bool := hasAllToken names || 1 < names.length

def splitDatabaseList (names : List String) : List String :=
  names.filter fun name => trimSpace name ≠ ""

structure Server where
  databases : List String
  listFails : Bool := false
  tlsFails : Bool := false
  /-- Whether the engine takes the word `all` for every database at any place of
  the names, and not only when it is the one name. -/
  allAnywhere : Bool := false
  lower : String → String := toLower

/-- The names the loop of `split_db` goes through, unless they cannot be listed. -/
def splitNames (server : Server) (list : DatabaseList) : Option (List String) :=
  if hasAllToken list.included then
    if server.listFails then none
    else some (expandAllInclude server.lower server.databases list)
  else some (splitDatabaseList list.included)

/-- The sub-job of the loop for one name. -/
def splitJob (job : JobConfig) (list : DatabaseList) (name : String) : JobConfig :=
  { job with
    databases := some
      { included := [name], routines := list.routines, events := list.events,
        triggers := list.triggers, views := list.views, rawBlobs := list.rawBlobs }
    splitDB := false }

def globalsJob (job : JobConfig) : JobConfig :=
  { job with databases := some { included := [globalsName] } }

/-- The names that are left when the globals are split off. -/
def withoutGlobals (names : List String) : List String := names.filter fun name => !isGlobals name

/-- The sub-job of the globals split for all other names. -/
def restJob (job : JobConfig) (names : List String) : JobConfig :=
  { job with databases := some { included := names } }

def splitsGlobals (names : List String) : Bool := 1 < names.length && containsGlobals names

/-- What follows the loop of `split_db`: the globals of PostgreSQL. -/
def globalsAfter (job : JobConfig) (list : DatabaseList) : List JobConfig :=
  if hasAllToken list.included && hasPrefix (toLower job.type) "postgres" then
    [{ globalsJob job with splitDB := false }]
  else []

inductive Plan where
  | fails
  | dumps
  | splits (subs : List JobConfig)

/-- What `Run` does before the dump. -/
def plan (server : Server) (job : JobConfig) : Plan :=
  match job.databases with
  | none => if server.tlsFails then .fails else .dumps
  | some list =>
    if splitsGlobals list.included then
      let rest := withoutGlobals list.included
      .splits ((if rest = [] then [] else [restJob job rest]) ++ [globalsJob job])
    else if server.tlsFails then .fails
    else if job.splitDB && shouldSplitDatabases list.included then
      match splitNames server list with
      | none => .fails
      | some names => .splits (names.map (splitJob job list) ++ globalsAfter job list)
    else .dumps

/-- `EffectiveStrategy`, of an empty section if there is none. -/
def strategyOf (job : JobConfig) : String := (job.backup.getD {}).effectiveStrategy

/-- The names the rest of `Run` dumps, unless it fails before. -/
def selectNames (server : Server) (job : JobConfig) (list : DatabaseList) : Option (List String) :=
  if hasAllToken list.included && !job.splitDB then
    if strategyOf job ≠ "full" then none
    else if list.excluded ≠ [] || 1 < list.included.length then
      if server.listFails then none
      else some (expandAllInclude server.lower server.databases list)
    else some list.included
  else some list.included

/-- The databases the engine dumps for a list of names. -/
def Server.dumps (server : Server) (names : List String) : List String :=
  let dump (name : String) := if toLower name = "all" then server.databases else [name]
  if server.allAnywhere then names.flatMap dump
  else
    match names with
    | [name] => dump name
    | _ => names

/-- The databases a job backs up itself, not through sub-jobs. -/
def backsUp (server : Server) (job : JobConfig) : List String :=
  match plan server job with
  | .dumps => server.dumps ((selectNames server job (job.databases.getD {})).getD [])
  | _ => []

/-- The sub-jobs a run starts, those of sub-jobs included, and its success. -/
structure Outcome where
  started : List JobConfig
  ok : Bool

def runEach (run : JobConfig → Outcome) : List JobConfig → Outcome
  | [] => ⟨[], true⟩
  | sub :: rest =>
    let first := run sub
    if first.ok then
      let later := runEach run rest
      ⟨sub :: first.started ++ later.started, later.ok⟩
    else ⟨sub :: first.started, false⟩

/-- `Run`, with a bound on its recursion; `dumped` tells whether a dump and what
follows it succeed. -/
def runWithin (server : Server) (dumped : JobConfig → Bool) : Nat → JobConfig → Outcome
  | 0, _ => ⟨[], false⟩
  | depth + 1, job =>
    match plan server job with
    | .fails => ⟨[], false⟩
    | .dumps => ⟨[], (selectNames server job (job.databases.getD {})).isSome && dumped job⟩
    | .splits subs => runEach (runWithin server dumped depth) subs

/-- Sub-jobs of sub-jobs do not split (`runWithin_eq_run`). -/
def run (server : Server) (dumped : JobConfig → Bool) (job : JobConfig) : Outcome :=
  runWithin server dumped 3 job

/-! ### Filters -/

/-- A name of a single database. -/
def isDatabase (name : String) : Bool := !isAllToken name && !isGlobals name

structure SameFilters (sub list : DatabaseList) : Prop where
  tables : sub.tables = list.tables
  routines : sub.routines = list.routines
  events : sub.events = list.events
  triggers : sub.triggers = list.triggers
  views : sub.views = list.views
  rawBlobs : sub.rawBlobs = list.rawBlobs

/-- No database among these is one that the list excludes and does not name. -/
def Spared (list : DatabaseList) (databases : List String) : Prop :=
  ∀ name ∈ databases, isGlobals name = false → list.excludes name = true → name ∈ list.included

/-- What a sub-job owes to the list of the job. -/
def KeepsTo (server : Server) (list : DatabaseList) (sub : JobConfig) : Prop :=
  (∀ own name, sub.databases = some own → own.included = [name] → isDatabase name = true →
    SameFilters own list) ∧ Spared list (backsUp server sub)

/-- Every sub-job of every run of a job keeps to its list. -/
def KeepsFilters (server : Server) (job : JobConfig) (list : DatabaseList) : Prop :=
  ∀ dumped, ∀ sub ∈ (run server dumped job).started, KeepsTo server list sub

/-! ### When the filters are kept -/

/-- A sub-job for the word `ALL` cannot be incremental or differential. -/
def passes (job : JobConfig) (name : String) : Bool :=
  strategyOf job = "full" || !isAllToken name

/-- The names the loop of `split_db` gets to. -/
def loopNames (server : Server) (job : JobConfig) (list : DatabaseList) : List String :=
  if !server.tlsFails && job.splitDB && shouldSplitDatabases list.included then
    ((splitNames server list).getD []).takeWhile (passes job)
  else []

def NoSwitches (list : DatabaseList) : Prop :=
  list.routines = none ∧ list.events = none ∧ list.triggers = none ∧ list.views = none ∧
    list.rawBlobs = none

/-- The loop of `split_db` drops the table filter; the globals split drops
everything but the names, so `ALL` is expanded without exclusions after it. -/
def FiltersAllow (server : Server) (job : JobConfig) (list : DatabaseList) : Prop :=
  if splitsGlobals list.included then
    let rest : DatabaseList := { included := withoutGlobals list.included }
    (∀ name, isDatabase name = true →
      (rest.included = [name] ∨ name ∈ loopNames server job rest) →
        list.tables = none ∧ NoSwitches list) ∧
    (∀ name ∈ loopNames server job rest, Spared list (server.dumps [name])) ∧
    (server.tlsFails = false → (job.splitDB && shouldSplitDatabases rest.included) = false →
      Spared list (server.dumps ((selectNames server job rest).getD [])))
  else
    (∀ name ∈ loopNames server job list, isDatabase name = true → list.tables = none) ∧
    ∀ name ∈ loopNames server job list, Spared list (server.dumps [name])

/-! ### One run after another -/

variable {subs : List JobConfig}

theorem started_of_leaves {run : JobConfig → Outcome} {sub : JobConfig}
    (passing : JobConfig → Bool) (leaves : ∀ other ∈ subs, (run other).started = [])
    (stops : ∀ other ∈ subs, passing other = false → (run other).ok = false)
    (started : sub ∈ (runEach run subs).started) :
    sub ∈ subs.takeWhile passing ∨ sub ∈ subs ∧ passing sub = false := by
  induction subs with
  | nil => exact absurd started List.not_mem_nil
  | cons first rest ih =>
    have alone := leaves first List.mem_cons_self
    rw [List.takeWhile_cons]
    simp only [runEach, alone] at started
    cases passed : passing first with
    | false =>
      rw [stops first List.mem_cons_self passed] at started
      right
      rw [List.mem_singleton.mp started]
      exact ⟨List.mem_cons_self, passed⟩
    | true =>
      have later := ih (List.forall_mem_cons.mp leaves).2
        (List.forall_mem_cons.mp stops).2
      split at started
      · rcases List.mem_cons.mp started with isFirst | isLater
        · exact Or.inl (List.mem_cons.mpr (Or.inl isFirst))
        · rcases later isLater with reached | failed
          · exact Or.inl (List.mem_cons_of_mem _ reached)
          · exact Or.inr ⟨List.mem_cons_of_mem _ failed.1, failed.2⟩
      · exact Or.inl (List.mem_cons.mpr (Or.inl (List.mem_singleton.mp started)))

theorem started_of_takeWhile {run : JobConfig → Outcome} {subs : List JobConfig} {sub : JobConfig}
    {passing : JobConfig → Bool} (goesOn : ∀ other ∈ subs, passing other = true → (run other).ok = true)
    (reached : sub ∈ subs.takeWhile passing) : sub ∈ (runEach run subs).started := by
  induction subs with
  | nil => exact absurd reached List.not_mem_nil
  | cons first rest ih =>
    rw [List.takeWhile_cons] at reached
    simp only [runEach]
    cases passed : passing first with
    | false => simp [passed] at reached
    | true =>
      rw [passed, if_pos rfl] at reached
      rw [if_pos (goesOn first List.mem_cons_self passed)]
      rcases List.mem_cons.mp reached with isFirst | isLater
      · exact List.mem_cons.mpr (Or.inl isFirst)
      · have later := ih (List.forall_mem_cons.mp goesOn).2 isLater
        exact List.mem_cons_of_mem _ (List.mem_append_right _ later)

theorem runEach_congr {one other : JobConfig → Outcome}
    (same : ∀ sub ∈ subs, one sub = other sub) : runEach one subs = runEach other subs := by
  induction subs with
  | nil => rfl
  | cons first rest ih =>
    have later := ih (List.forall_mem_cons.mp same).2
    simp only [runEach, same first List.mem_cons_self, later]

/-! ### Sub-jobs of one name -/

theorem hasAllToken_singleton (name : String) : hasAllToken [name] = isAllToken name := by
  simp [hasAllToken, isAllToken]

theorem plan_splitJob (server : Server) (job : JobConfig) (list : DatabaseList) (name : String) :
    plan server (splitJob job list name) = if server.tlsFails then .fails else .dumps := by
  rfl

theorem plan_globalsJob (server : Server) (job : JobConfig) :
    plan server (globalsJob job) = if server.tlsFails then .fails else .dumps := by
  have whole : shouldSplitDatabases [globalsName] = false := by decide
  simp [plan, globalsJob, splitsGlobals, whole]

theorem selectNames_splitJob (server : Server) (job : JobConfig) (list : DatabaseList)
    (name : String) :
    selectNames server (splitJob job list name) ((splitJob job list name).databases.getD {}) =
      if passes job name then some [name] else none := by
  have strategy : strategyOf (splitJob job list name) = strategyOf job := rfl
  unfold selectNames passes
  rw [strategy]
  simp only [splitJob, Option.getD_some, hasAllToken_singleton]
  cases isAllToken name <;> by_cases full : strategyOf job = "full" <;> simp [full]

variable {server : Server} {job : JobConfig}

theorem backsUp_splitJob (secure : server.tlsFails = false) :
    backsUp server (splitJob job list name) = if passes job name then server.dumps [name] else [] := by
  unfold backsUp
  rw [plan_splitJob, secure, selectNames_splitJob]
  cases passes job name with
  | true => rfl
  | false =>
    show server.dumps [] = []
    unfold Server.dumps
    cases server.allAnywhere <;> rfl

theorem dumps_globals (server : Server) : server.dumps [globalsName] = [globalsName] := by
  have other : (toLower globalsName = "all") = False := by decide
  unfold Server.dumps
  cases server.allAnywhere <;> simp [other]

/-- The sub-job for the globals has nothing to do with databases. -/
theorem keepsTo_globals {list own : DatabaseList} {sub : JobConfig}
    (databases : sub.databases = some own) (named : own.included = [globalsName]) :
    KeepsTo server list sub := by
  constructor
  · intro other name given single isOne
    obtain rfl : own = other := Option.some.inj (databases.symm.trans given)
    obtain rfl : globalsName = name := List.singleton_inj.mp (named.symm.trans single)
    exact absurd isOne (by decide)
  · intro name dumped isName
    have selected : selectNames server sub own = some [globalsName] := by
      unfold selectNames
      rw [named]
      rfl
    unfold backsUp at dumped
    rw [databases] at dumped
    split at dumped
    · rw [Option.getD_some, selected, Option.getD_some, dumps_globals, List.mem_singleton] at dumped
      rw [dumped] at isName
      exact absurd isName (by decide)
    · exact absurd dumped List.not_mem_nil

/-- What the loop's sub-job for a name owes, in terms of the two lists. -/
theorem keepsTo_splitJob_iff {list whole : DatabaseList}  (secure : server.tlsFails = false) :
    KeepsTo server whole (splitJob job list name) ↔
      (isDatabase name = true → whole.tables = none ∧ list.routines = whole.routines ∧
        list.events = whole.events ∧ list.triggers = whole.triggers ∧ list.views = whole.views ∧
        list.rawBlobs = whole.rawBlobs) ∧
      (passes job name = true → Spared whole (server.dumps [name])) := by
  unfold KeepsTo
  rw [backsUp_splitJob secure]
  refine and_congr ⟨fun kept isOne => ?_, fun same own other given single isOne => ?_⟩ ?_
  · have filters := kept _ name rfl rfl isOne
    exact ⟨filters.tables.symm, filters.routines, filters.events, filters.triggers, filters.views,
      filters.rawBlobs⟩
  · obtain rfl := Option.some.inj given
    obtain rfl : name = other := List.singleton_inj.mp single
    obtain ⟨tables, routines, events, triggers, views, rawBlobs⟩ := same isOne
    exact ⟨tables.symm, routines, events, triggers, views, rawBlobs⟩
  · cases passes job name with
    | true => simp
    | false => simp [Spared]

/-! ### Runs -/

/-- A dump can be reached: the names are known, and the strategy allows them. -/
def reachesDump (server : Server) (job : JobConfig) : Bool :=
  (selectNames server job (job.databases.getD {})).isSome

theorem reachesDump_splitJob (server : Server) (job : JobConfig) (list : DatabaseList)
    (name : String) : reachesDump server (splitJob job list name) = passes job name := by
  unfold reachesDump
  rw [selectNames_splitJob]
  cases passes job name <;> rfl

theorem reachesDump_comp_splitJob (server : Server) (job : JobConfig) (list : DatabaseList) :
    reachesDump server ∘ splitJob job list = passes job := by
  funext name
  rw [Function.comp_apply, reachesDump_splitJob]

variable {depth : Nat}

theorem run_dumps {dumped : JobConfig → Bool} (planned : plan server job = .dumps) :
    runWithin server dumped (depth + 1) job = ⟨[], reachesDump server job && dumped job⟩ := by
  unfold runWithin
  rw [planned]
  rfl

theorem run_splits {dumped : JobConfig → Bool}
    (depth : Nat) (planned : plan server job = .splits subs) :
    runWithin server dumped (depth + 1) job = runEach (runWithin server dumped depth) subs := by
  rw [runWithin, planned]

theorem plan_of_unsplit {server : Server} {job : JobConfig} {list : DatabaseList}
    (databases : job.databases = some list) (unsplit : splitsGlobals list.included = false) :
    plan server job = if server.tlsFails then .fails
      else if job.splitDB && shouldSplitDatabases list.included then
        match splitNames server list with
        | none => .fails
        | some names => .splits (names.map (splitJob job list) ++ globalsAfter job list)
      else .dumps := by
  simp [plan, databases, unsplit]

/-- A job that does not split off the globals goes through the loop of `split_db`
or has no sub-jobs. -/
theorem plan_cases {server : Server} {job : JobConfig} {list : DatabaseList}
    (databases : job.databases = some list) (whole : splitsGlobals list.included = false) :
    (server.tlsFails = false ∧ ∃ names : List String,
      plan server job = .splits (names.map (splitJob job list) ++ globalsAfter job list) ∧
        loopNames server job list = names.takeWhile (passes job)) ∨
    (loopNames server job list = [] ∧
      (plan server job = .fails ∨
        server.tlsFails = false ∧ (job.splitDB && shouldSplitDatabases list.included) = false ∧
          plan server job = .dumps)) := by
  rw [plan_of_unsplit databases whole]
  unfold loopNames
  cases insecure : server.tlsFails with
  | true => exact Or.inr ⟨rfl, Or.inl rfl⟩
  | false =>
    rw [Bool.not_false, Bool.true_and]
    cases splitting : job.splitDB && shouldSplitDatabases list.included with
    | false => exact Or.inr ⟨rfl, Or.inr ⟨rfl, rfl, rfl⟩⟩
    | true =>
      cases found : splitNames server list with
      | none => exact Or.inr ⟨rfl, Or.inl rfl⟩
      | some names => exact Or.inl ⟨rfl, names, rfl, rfl⟩

/-- The sub-jobs of the loop are dumps, and so is what follows it. -/
theorem plan_of_loop {job sub : JobConfig} {names : List String} (secure : server.tlsFails = false)
    (listed : sub ∈ names.map (splitJob job list) ++ globalsAfter job list) :
    plan server sub = .dumps := by
  rcases List.mem_append.mp listed with ofName | after
  · obtain ⟨name, -, rfl⟩ := List.mem_map.mp ofName
    rw [plan_splitJob, secure]
    rfl
  · unfold globalsAfter at after
    split at after
    · rw [List.mem_singleton.mp after]
      have planned := plan_globalsJob server { job with splitDB := false }
      rw [secure] at planned
      exact planned
    · exact absurd after List.not_mem_nil

theorem globalsAfter_names {job sub : JobConfig} (after : sub ∈ globalsAfter job list) :
    ∃ own, sub.databases = some own ∧ own.included = [globalsName] := by
  unfold globalsAfter at after
  split at after
  · rw [List.mem_singleton.mp after]
    exact ⟨_, rfl, rfl⟩
  · exact absurd after List.not_mem_nil

theorem mem_takeWhile_append {α : Type} {p : α → Bool} {one two : List α} {x : α}
    (kept : x ∈ (one ++ two).takeWhile p) : x ∈ one.takeWhile p ∨ x ∈ two := by
  induction one with
  | nil => exact Or.inr ((List.takeWhile_prefix p).subset kept)
  | cons first rest ih =>
    rw [List.cons_append, List.takeWhile_cons] at kept
    rw [List.takeWhile_cons]
    cases holds : p first with
    | false => simp [holds] at kept
    | true =>
      rw [holds, if_pos rfl] at kept
      rcases List.mem_cons.mp kept with isFirst | isLater
      · exact Or.inl (List.mem_cons.mpr (Or.inl isFirst))
      · exact (ih isLater).imp_left (List.mem_cons_of_mem _)

theorem mem_takeWhile_append_left {α : Type} {p : α → Bool} {one : List α} (two : List α) {x : α}
    (kept : x ∈ one.takeWhile p) : x ∈ (one ++ two).takeWhile p := by
  rw [List.takeWhile_append]
  split
  · exact List.mem_append_left _ ((List.takeWhile_prefix p).subset kept)
  · exact kept

/-- What a run of such a job starts: dumps of the globals, the names the loop gets
to, and at most a name at which it stops. -/
theorem started_split {dumped : JobConfig → Bool} {job sub : JobConfig}
    (databases : job.databases = some list)
    (whole : splitsGlobals list.included = false)
    (started : sub ∈ (runWithin server dumped (depth + 2) job).started) :
    server.tlsFails = false ∧
      ((∃ own, sub.databases = some own ∧ own.included = [globalsName]) ∨
        ∃ name, sub = splitJob job list name ∧
          (name ∈ loopNames server job list ∨ passes job name = false)) := by
  rcases plan_cases databases whole with ⟨secure, names, planned, loop⟩ | ⟨-, planned⟩
  · refine ⟨secure, ?_⟩
    rw [run_splits (depth + 1) planned] at started
    have leaf : ∀ other ∈ names.map (splitJob job list) ++ globalsAfter job list,
        runWithin server dumped (depth + 1) other = ⟨[], reachesDump server other && dumped other⟩ :=
      fun other listed => run_dumps (plan_of_loop secure listed)
    have reached := started_of_leaves (reachesDump server)
      (fun other listed => by rw [leaf other listed])
      (fun other listed stopped => by rw [leaf other listed, stopped]; rfl) started
    have ofName (name : String) (same : splitJob job list name = sub)
        (kept : name ∈ loopNames server job list ∨ passes job name = false) :
        ∃ name, sub = splitJob job list name ∧
          (name ∈ loopNames server job list ∨ passes job name = false) :=
      ⟨name, same.symm, kept⟩
    rcases reached with taken | ⟨listed, stopped⟩
    · rcases mem_takeWhile_append taken with ofLoop | after
      · rw [List.takeWhile_map] at ofLoop
        obtain ⟨name, kept, same⟩ := List.mem_map.mp ofLoop
        right
        refine ofName name same (Or.inl ?_)
        rw [loop, ← reachesDump_comp_splitJob server job list]
        exact kept
      · exact Or.inl (globalsAfter_names after)
    · rcases List.mem_append.mp listed with ofLoop | after
      · obtain ⟨name, -, same⟩ := List.mem_map.mp ofLoop
        right
        refine ofName name same (Or.inr ?_)
        rw [← reachesDump_splitJob server job list, same]
        exact stopped
      · exact Or.inl (globalsAfter_names after)
  · exfalso
    unfold runWithin at started
    rcases planned with planned | ⟨-, -, planned⟩
    · rw [planned] at started
      exact List.not_mem_nil started
    · rw [planned] at started
      exact List.not_mem_nil started

/-- If every dump succeeds, the loop does get to its names. -/
theorem started_of_loopNames {server : Server} {job : JobConfig} {list : DatabaseList}
    {name : String} {depth : Nat} (databases : job.databases = some list)
    (whole : splitsGlobals list.included = false) (kept : name ∈ loopNames server job list) :
    splitJob job list name ∈ (runWithin server (fun _ => true) (depth + 2) job).started := by
  rcases plan_cases databases whole with ⟨secure, names, planned, loop⟩ | ⟨none, -⟩
  · rw [run_splits (depth + 1) planned]
    refine @started_of_takeWhile _ _ _ (reachesDump server) (fun other listed reaches => ?_) ?_
    · rw [run_dumps (plan_of_loop secure listed), reaches]
      rfl
    · apply mem_takeWhile_append_left
      rw [List.takeWhile_map, reachesDump_comp_splitJob, ← loop]
      exact List.mem_map_of_mem kept
  · rw [none] at kept
    exact absurd kept List.not_mem_nil

/-- The sub-jobs of such a job keep to a list exactly if those of the names do. -/
theorem keeps_loop_iff {server : Server} {job : JobConfig} {list whole : DatabaseList} (depth : Nat)
    (databases : job.databases = some list) (unsplit : splitsGlobals list.included = false) :
    (∀ dumped, ∀ sub ∈ (runWithin server dumped (depth + 2) job).started, KeepsTo server whole sub) ↔
      ∀ name ∈ loopNames server job list,
        (isDatabase name = true → whole.tables = none ∧ list.routines = whole.routines ∧
          list.events = whole.events ∧ list.triggers = whole.triggers ∧ list.views = whole.views ∧
          list.rawBlobs = whole.rawBlobs) ∧ Spared whole (server.dumps [name]) := by
  constructor
  · intro keep name kept
    have started := @started_of_loopNames server job list name depth databases unsplit kept
    have secure := (started_split databases unsplit started).1
    have owes := (keepsTo_splitJob_iff secure).mp (keep _ _ started)
    have passing : passes job name = true := by
      unfold loopNames at kept
      split at kept
      · exact List.mem_takeWhile_imp kept
      · exact absurd kept List.not_mem_nil
    exact ⟨owes.1, owes.2 passing⟩
  · intro allow dumped sub started
    obtain ⟨secure, ⟨own, given, named⟩ | ⟨name, rfl, kept | stopped⟩⟩ :=
      started_split databases unsplit started
    · exact keepsTo_globals given named
    · have owes := allow name kept
      exact (keepsTo_splitJob_iff secure).mpr ⟨owes.1, fun _ => owes.2⟩
    · -- the loop stops at a name that means every database
      refine (keepsTo_splitJob_iff secure).mpr ⟨fun isOne => ?_, fun passing => ?_⟩
      · simp [passes] at stopped
        simp [isDatabase, stopped.2] at isOne
      · rw [stopped] at passing
        exact absurd passing Bool.false_ne_true

/-! ### The globals split -/

theorem withoutGlobals_unsplit (names : List String) :
    splitsGlobals (withoutGlobals names) = false := by
  have none : containsGlobals (withoutGlobals names) = false := by
    simp [containsGlobals, withoutGlobals]
  simp [splitsGlobals, none]

theorem dumps_nil (server : Server) : server.dumps [] = [] := by
  unfold Server.dumps
  cases server.allAnywhere <;> rfl

theorem spared_nil (list : DatabaseList) : Spared list [] :=
  fun _ none => absurd none List.not_mem_nil

theorem started_globalsJob {dumped : JobConfig → Bool}
    (depth : Nat) : (runWithin server dumped depth (globalsJob job)).started = [] := by
  cases depth with
  | zero => rfl
  | succ depth =>
    unfold runWithin
    rw [plan_globalsJob]
    cases server.tlsFails <;> rfl

/-- What a run of a job that splits off the globals starts. -/
theorem started_globals {dumped : JobConfig → Bool} {job sub : JobConfig}
    (databases : job.databases = some list)
    (splits : splitsGlobals list.included = true)
    (started : sub ∈ (runWithin server dumped (depth + 1) job).started) :
    sub = globalsJob job ∨ withoutGlobals list.included ≠ [] ∧
      (sub = restJob job (withoutGlobals list.included) ∨
        sub ∈ (runWithin server dumped depth (restJob job (withoutGlobals list.included))).started) := by
  have alone : sub ∈ (runEach (runWithin server dumped depth) [globalsJob job]).started →
      sub = globalsJob job := by
    simp only [runEach, started_globalsJob]
    split <;> exact fun isIn => by simpa using isIn
  unfold runWithin at started
  simp only [plan, databases, splits, if_true] at started
  by_cases empty : withoutGlobals list.included = []
  · rw [if_pos empty] at started
    exact Or.inl (alone started)
  · rw [if_neg empty] at started
    rw [List.cons_append, List.nil_append, runEach] at started
    dsimp only at started
    split at started
    · rcases List.mem_cons.mp started with isRest | later
      · exact Or.inr ⟨empty, Or.inl isRest⟩
      · rcases List.mem_append.mp later with inner | after
        · exact Or.inr ⟨empty, Or.inr inner⟩
        · exact Or.inl (alone after)
    · rcases List.mem_cons.mp started with isRest | inner
      · exact Or.inr ⟨empty, Or.inl isRest⟩
      · exact Or.inr ⟨empty, Or.inr inner⟩

theorem started_of_rest {dumped : JobConfig → Bool} {job sub : JobConfig}
    (databases : job.databases = some list)
    (splits : splitsGlobals list.included = true) (some : withoutGlobals list.included ≠ [])
    (inner : sub = restJob job (withoutGlobals list.included) ∨
      sub ∈ (runWithin server dumped depth (restJob job (withoutGlobals list.included))).started) :
    sub ∈ (runWithin server dumped (depth + 1) job).started := by
  rw [runWithin]
  simp only [plan, databases, splits, if_true, if_neg some, List.cons_append, List.nil_append,
    runEach]
  split
  · rcases inner with rfl | deeper
    · exact List.mem_cons_self
    · exact List.mem_cons_of_mem _ (List.mem_append_left _ deeper)
  · rcases inner with rfl | deeper
    · exact List.mem_cons_self
    · exact List.mem_cons_of_mem _ deeper

theorem backsUp_restJob {names : List String} (unsplit : splitsGlobals names = false) :
    backsUp server (restJob job names) =
      if server.tlsFails = false ∧ (job.splitDB && shouldSplitDatabases names) = false then
        server.dumps ((selectNames server job { included := names }).getD [])
      else [] := by
  have same : selectNames server (restJob job names) ((restJob job names).databases.getD {}) =
      selectNames server job { included := names } := rfl
  have sameSplit : (restJob job names).splitDB = job.splitDB := rfl
  unfold backsUp
  rw [same, @plan_of_unsplit server (restJob job names) { included := names } rfl unsplit, sameSplit]
  cases server.tlsFails with
  | true => rfl
  | false =>
    cases job.splitDB && shouldSplitDatabases names with
    | false => rfl
    | true =>
      cases splitNames server { included := names } <;> rfl

theorem keepsTo_restJob_iff {server : Server} {job : JobConfig} {whole : DatabaseList}
    {names : List String} (unsplit : splitsGlobals names = false) :
    KeepsTo server whole (restJob job names) ↔
      (∀ name, isDatabase name = true → names = [name] → whole.tables = none ∧ NoSwitches whole) ∧
      (server.tlsFails = false → (job.splitDB && shouldSplitDatabases names) = false →
        Spared whole (server.dumps ((selectNames server job { included := names }).getD []))) := by
  unfold KeepsTo
  rw [backsUp_restJob unsplit]
  refine and_congr ⟨fun kept name isOne single => ?_, fun bare own name given single isOne => ?_⟩ ?_
  · have filters := kept _ name rfl single isOne
    exact ⟨filters.tables.symm, filters.routines.symm, filters.events.symm, filters.triggers.symm,
      filters.views.symm, filters.rawBlobs.symm⟩
  · obtain rfl := Option.some.inj given
    obtain ⟨tables, routines, events, triggers, views, rawBlobs⟩ := bare name isOne single
    exact ⟨tables.symm, routines.symm, events.symm, triggers.symm, views.symm, rawBlobs.symm⟩
  · split
    · next dumps => exact ⟨fun spared _ _ => spared, fun spared => spared dumps.1 dumps.2⟩
    · next none =>
        exact ⟨fun _ secure single => absurd ⟨secure, single⟩ none, fun _ => spared_nil whole⟩

/-- The bound on the recursion does not matter: sub-jobs of sub-jobs do not split. -/
theorem runWithin_unsplit {dumped : JobConfig → Bool}  (databases : job.databases = some list)
    (unsplit : splitsGlobals list.included = false) (depth : Nat) :
    runWithin server dumped (depth + 2) job = runWithin server dumped 2 job := by
  rw [runWithin, runWithin]
  obtain ⟨secure, names, planned, -⟩ | ⟨-, planned | ⟨-, -, planned⟩⟩ :=
    @plan_cases server job list databases unsplit
  · rw [planned]
    exact runEach_congr fun sub listed =>
      (run_dumps (plan_of_loop secure listed)).trans (run_dumps (plan_of_loop secure listed)).symm
  · rw [planned]
  · rw [planned]

theorem runWithin_eq_run (server : Server) (dumped : JobConfig → Bool) (job : JobConfig)
    (depth : Nat) : runWithin server dumped (depth + 3) job = run server dumped job := by
  unfold run
  cases databases : job.databases with
  | none =>
    rw [runWithin, runWithin]
    simp only [plan, databases]
    cases server.tlsFails <;> rfl
  | some list =>
    cases splits : splitsGlobals list.included with
    | false =>
      rw [runWithin_unsplit databases splits (depth + 1), runWithin_unsplit databases splits 1]
    | true =>
      rw [runWithin, runWithin]
      simp only [plan, databases, splits, if_true]
      apply runEach_congr
      intro sub listed
      rcases List.mem_append.mp listed with ofRest | isGlobal
      · split at ofRest
        · exact absurd ofRest List.not_mem_nil
        · rw [List.mem_singleton.mp ofRest]
          exact runWithin_unsplit rfl (withoutGlobals_unsplit list.included) depth
      · rw [List.mem_singleton.mp isGlobal]
        exact runWithin_unsplit rfl (by decide) depth

/-- Every run of a job starts only sub-jobs that keep its filters and exclusions,
exactly if nothing is there that the two splits lose. -/
theorem keepsFilters_iff {server : Server} {job : JobConfig} {list : DatabaseList}
    (databases : job.databases = some list) :
    KeepsFilters server job list ↔ FiltersAllow server job list := by
  unfold KeepsFilters run FiltersAllow
  cases splits : splitsGlobals list.included with
  | false =>
    rw [keeps_loop_iff 1 databases splits, if_neg Bool.false_ne_true]
    constructor
    · intro loop
      exact ⟨fun name kept isOne => ((loop name kept).1 isOne).1, fun name kept => (loop name kept).2⟩
    · rintro ⟨tables, spared⟩ name kept
      exact ⟨fun isOne => ⟨tables name kept isOne, rfl, rfl, rfl, rfl, rfl⟩, spared name kept⟩
  | true =>
    rw [if_pos rfl]
    have unsplit := withoutGlobals_unsplit list.included
    have inner := @keeps_loop_iff server (restJob job (withoutGlobals list.included)) _ list 0
      rfl unsplit
    have bare := @keepsTo_restJob_iff server job list _ unsplit
    have sameLoop : loopNames server (restJob job (withoutGlobals list.included))
        { included := withoutGlobals list.included } =
        loopNames server job { included := withoutGlobals list.included } := rfl
    rw [sameLoop] at inner
    constructor
    · intro keep
      by_cases empty : withoutGlobals list.included = []
      · have noLoop : loopNames server job { included := withoutGlobals list.included } = [] := by
          rw [empty]
          simp [loopNames, shouldSplitDatabases, hasAllToken]
        refine ⟨fun name _ single => ?_, fun name kept => ?_, fun _ _ => ?_⟩
        · rcases single with single | kept
          · exact absurd (empty.symm.trans single) (List.cons_ne_nil _ _).symm
          · rw [noLoop] at kept
            exact absurd kept List.not_mem_nil
        · rw [noLoop] at kept
          exact absurd kept List.not_mem_nil
        · rw [empty]
          simpa [selectNames, hasAllToken, dumps_nil] using spared_nil list
      · have loop := inner.mp fun dumped sub started =>
          keep dumped sub (started_of_rest databases splits empty (Or.inr started))
        have own := bare.mp
          (keep (fun _ => true) _ (started_of_rest databases splits empty (Or.inl rfl)))
        refine ⟨fun name isOne reached => ?_, fun name kept => (loop name kept).2, own.2⟩
        rcases reached with single | kept
        · exact own.1 name isOne single
        · obtain ⟨tables, routines, events, triggers, views, rawBlobs⟩ := (loop name kept).1 isOne
          exact ⟨tables, routines.symm, events.symm, triggers.symm, views.symm, rawBlobs.symm⟩
    · rintro ⟨filters, spared, dumps⟩ dumped sub started
      rcases started_globals databases splits started with rfl | ⟨-, rfl | deeper⟩
      · exact keepsTo_globals rfl rfl
      · exact bare.mpr ⟨fun name isOne single => filters name isOne (Or.inl single), dumps⟩
      · refine inner.mpr (fun name kept => ⟨fun isOne => ?_, spared name kept⟩) dumped sub deeper
        obtain ⟨tables, routines, events, triggers, views, rawBlobs⟩ :=
          filters name isOne (Or.inr kept)
        exact ⟨tables, routines.symm, events.symm, triggers.symm, views.symm, rawBlobs.symm⟩

/-- `ALL` with an exclusion and no filter of tables. -/
theorem keepsFilters_all :
    KeepsFilters { databases := ["app", "shop", "temp"] }
      { splitDB := true, databases := some { included := ["ALL"], excluded := ["temp"] } }
      { included := ["ALL"], excluded := ["temp"] } := by
  refine (keepsFilters_iff rfl).mpr ?_
  unfold FiltersAllow
  rw [if_neg (by decide)]
  refine ⟨fun _ _ _ => rfl, ?_⟩
  unfold Spared
  decide

def shopList : DatabaseList :=
  { included := ["app", "shop"], tables := some { excluded := ["log_*"] } }

/-- The table filter does not reach the sub-job of a database. -/
theorem split_drops_tables :
    ¬ KeepsFilters { databases := ["app", "shop"] } { splitDB := true, databases := some shopList }
      shopList := by
  intro keeps
  have started := @started_of_loopNames { databases := ["app", "shop"] }
    { splitDB := true, databases := some shopList } shopList "app" 1 rfl (by decide) (by decide)
  have kept := (keeps (fun _ => true) _ started).1 _ "app" rfl rfl (by decide)
  exact absurd kept.tables (by decide)

end DbBackup.Runner
