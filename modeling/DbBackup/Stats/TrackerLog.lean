import DbBackup.Stats.Tracker

/-!
Owns the reading of the tracker as a log of calls.

From every hour that a later snapshot can still read on, the maps agree with the log (`Tracks`):
a call adds to both, a snapshot deletes only what is older. Contract: `snapshot_eq_log`. A snapshot
is a function of the calls that were made, whatever snapshots were taken between them.
-/

set_option linter.all false

namespace DbBackup.Stats.Tracking

open Lib.Buckets Lib.Upsert

/-! ### The log -/

def marked (dbType : String) (call : Call) : Option (Int × RunEnd) :=
  match call.event with
  | .mark own run => if own = dbType then some (hour call.now, run) else none
  | _ => none

/-- A call with no positive number is no activity. -/
def acted (dbType : String) (call : Call) : Option (Int × String × Int) :=
  match call.event with
  | .recordActivity own op n => if own = dbType ∧ 0 < n then some (hour call.now, op, n) else none
  | _ => none

def noted (dbType token : String) (call : Call) : Option Int :=
  match call.event with
  | .noteServer own text =>
    if own = dbType ∧ text = token ∧ text ≠ "" then some (hour call.now) else none
  | _ => none

/-- The runs of a type from an hour on. -/
def runs (log : List Call) (low : Int) (dbType : String) : List RunEnd :=
  ((log.filterMap (marked dbType)).filter (low ≤ ·.1)).map Prod.snd

/-- The counts of an operation from an hour on. -/
def counted (log : List Call) (low : Int) (dbType op : String) : List Int :=
  ((log.filterMap (acted dbType)).filter fun call => low ≤ call.1 ∧ call.2.1 = op).map (·.2.2)

def NotedFrom (log : List Call) (low : Int) (dbType token : String) : Prop :=
  ∃ noticed ∈ log.filterMap (noted dbType token), low ≤ noticed

/-- The outcome of its type that the log gives from an hour on. -/
structure OutcomeOf (log : List Call) (low : Int) (o : JobOutcome) : Prop where
  success : o.success = ((runs log low o.type).filter (·.ok)).length
  failed : o.failed = ((runs log low o.type).filter (!·.ok)).length
  duration : o.duration = ((runs log low o.type).map RunEnd.duration).sum
  kb : o.kb = toKB ((runs log low o.type).map RunEnd.bytes).sum
  rawKB : o.rawKB = toKB ((runs log low o.type).map RunEnd.rawBytes).sum
  pruned : o.pruned = (counted log low o.type "prune").sum
  archived : o.archived = (counted log low o.type "archive").sum
  servers_sorted : o.servers.Pairwise (· < ·)
  servers : ∀ token, token ∈ o.servers ↔
    runs log low o.type ≠ [] ∧ NotedFrom log low o.type token

/-! ### What the maps hold -/

def runEntries (dbType : String) (log : List Call) : List (Int × Counts) :=
  (log.filterMap (marked dbType)).map fun entry => (entry.1, entry.2.counts)

def activityEntries (dbType : String) (log : List Call) : List (Int × (String → Int)) :=
  (log.filterMap (acted dbType)).map fun entry => (entry.1, Pi.single entry.2.1 entry.2.2)

structure Tracks (low : Int) (log : List Call) (t : Tracker) : Prop where
  byTs : ∀ dbType, Agrees low (runEntries dbType log) (inner t.byTs dbType)
  activity : ∀ dbType, Agrees low (activityEntries dbType log) (inner t.activity dbType)
  servers : ∀ dbType token,
    (∃ noticed, (inner t.servers dbType).lookup token = some noticed ∧ low ≤ noticed) ↔
      NotedFrom log low dbType token

theorem inner_insert {κ V : Type} (outer : Map String (Map κ V)) (key other : String)
    (value : Map κ V) :
    inner (outer.insert key value) other = if other = key then value else inner outer other := by
  unfold inner
  by_cases same : other = key
  · subst same
    rw [AList.lookup_insert, if_pos rfl, Option.getD_some]
  · rw [AList.lookup_insert_ne same, if_neg same]

theorem runEntries_append (dbType : String) (log : List Call) (call : Call) :
    runEntries dbType (log ++ [call]) = runEntries dbType log ++
      ((marked dbType call).map fun entry => (entry.1, entry.2.counts)).toList := by
  unfold runEntries
  rw [List.filterMap_append, List.map_append]
  cases found : marked dbType call <;> simp [found]

theorem activityEntries_append (dbType : String) (log : List Call) (call : Call) :
    activityEntries dbType (log ++ [call]) = activityEntries dbType log ++
      ((acted dbType call).map fun entry =>
        (entry.1, (Pi.single entry.2.1 entry.2.2 : String → Int))).toList := by
  unfold activityEntries
  rw [List.filterMap_append, List.map_append]
  cases found : acted dbType call <;> simp [found]

theorem notedFrom_append (log : List Call) (call : Call) (low : Int) (dbType token : String) :
    NotedFrom (log ++ [call]) low dbType token ↔
      NotedFrom log low dbType token ∨ ∃ noticed, noted dbType token call = some noticed ∧
        low ≤ noticed := by
  unfold NotedFrom
  rw [List.filterMap_append]
  simp only [List.mem_append, or_and_right, exists_or]
  simp

/-! ### A call -/

theorem Tracks.new (low : Int) : Tracks low [] {} where
  byTs _ := Agrees.empty low
  activity _ := Agrees.empty low
  servers _ _ := by simp [NotedFrom, inner]

variable {log : List Call}

theorem Tracks.mark {low now : Int} {t : Tracker} (tracks : Tracks low log t)
    (dbType : String) (run : RunEnd) :
    Tracks low (log ++ [⟨now, .mark dbType run⟩]) (t.mark now dbType run) where
  byTs other := by
    rw [runEntries_append, Tracker.mark, inner_insert]
    by_cases same : other = dbType
    · subst same
      rw [if_pos rfl]
      simpa [marked] using (tracks.byTs other).bump (hour now) run.counts
    · rw [if_neg same]
      simpa [marked, Ne.symm same] using tracks.byTs other
  activity other := by
    rw [activityEntries_append]
    simpa [acted, Tracker.mark] using tracks.activity other
  servers other token := by
    rw [notedFrom_append]
    simpa [noted, Tracker.mark] using tracks.servers other token

theorem Tracks.recordActivity {low now : Int} {t : Tracker}
    (tracks : Tracks low log t) (dbType op : String) (n : Int) :
    Tracks low (log ++ [⟨now, .recordActivity dbType op n⟩]) (t.recordActivity now dbType op n)
    where
  byTs other := by
    rw [runEntries_append, Tracker.recordActivity]
    split <;> simpa [marked] using tracks.byTs other
  activity other := by
    rw [activityEntries_append, Tracker.recordActivity]
    by_cases positive : n ≤ 0
    · rw [if_pos positive]
      simpa [acted, Int.not_lt.mpr positive] using tracks.activity other
    · rw [if_neg positive, inner_insert]
      have above : 0 < n := Int.not_le.mp positive
      by_cases same : other = dbType
      · subst same
        rw [if_pos rfl]
        simpa [acted, above] using (tracks.activity other).bump (hour now) (Pi.single op n)
      · rw [if_neg same]
        simpa [acted, Ne.symm same] using tracks.activity other
  servers other token := by
    rw [notedFrom_append, Tracker.recordActivity]
    split <;> simpa [noted] using tracks.servers other token

theorem hour_mono {now later : Int} (le : now ≤ later) : hour now ≤ hour later :=
  Int.tdiv_le_tdiv (by decide) le

theorem NotedFrom.le_hour {low now : Int} {dbType token : String}
    (noted : NotedFrom log low dbType token) (past : ∀ call ∈ log, call.now ≤ now) :
    low ≤ hour now := by
  obtain ⟨noticed, found, above⟩ := noted
  obtain ⟨call, member, isNoted⟩ := List.mem_filterMap.mp found
  have le := hour_mono (past call member)
  unfold Tracking.noted at isNoted
  split at isNoted
  · split at isNoted
    · cases isNoted
      exact above.trans le
    · cases isNoted
  · cases isNoted

theorem Tracks.noteServer {low now : Int} {t : Tracker}
    (tracks : Tracks low log t) (past : ∀ call ∈ log, call.now ≤ now) (dbType token : String) :
    Tracks low (log ++ [⟨now, .noteServer dbType token⟩]) (t.noteServer now dbType token) where
  byTs other := by
    rw [runEntries_append, Tracker.noteServer]
    split <;> simpa [marked] using tracks.byTs other
  activity other := by
    rw [activityEntries_append, Tracker.noteServer]
    split <;> simpa [acted] using tracks.activity other
  servers other text := by
    rw [notedFrom_append, Tracker.noteServer]
    by_cases empty : token = ""
    · rw [if_pos empty]
      simpa [noted, empty] using tracks.servers other text
    · rw [if_neg empty, inner_insert]
      by_cases same : other = dbType
      · subst same
        rw [if_pos rfl]
        by_cases own : text = token
        · subst own
          -- The token moves to the current hour, and none of the log is later.
          have now_or (known : NotedFrom log low other text) := known.le_hour past
          simpa [noted, empty] using now_or
        · rw [AList.lookup_insert_ne own]
          simpa [noted, Ne.symm own] using tracks.servers other text
      · rw [if_neg same]
        simpa [noted, Ne.symm same] using tracks.servers other text

theorem Tracks.apply {low now : Int} {t : Tracker} (tracks : Tracks low log t)
    (past : ∀ call ∈ log, call.now ≤ now) (event : Event) :
    Tracks low (log ++ [⟨now, event⟩]) (t.apply ⟨now, event⟩) := by
  cases event with
  | mark dbType run => exact tracks.mark dbType run
  | noteServer dbType token => exact tracks.noteServer past dbType token
  | recordActivity dbType op n => exact tracks.recordActivity dbType op n

/-! ### A snapshot keeps the maps -/

variable (minHour : Int)

theorem lookup_foldl_tokenStep (order : List String)
    (swept : Map String Int × List String) (token : String) (noticed : Int)
    (above : minHour ≤ noticed) :
    (order.foldl (tokenStep minHour) swept).1.lookup token = some noticed ↔
      swept.1.lookup token = some noticed := by
  induction order generalizing swept with
  | nil => rfl
  | cons first rest ih =>
    rw [List.foldl_cons, ih, tokenStep]
    split
    · rename_i below
      by_cases same : token = first
      · subst same
        rw [AList.lookup_erase]
        constructor
        · intro none
          cases none
        · intro known
          rw [known, Option.getD_some] at below
          omega
      · rw [AList.lookup_erase_ne same]
    · rfl

theorem Tracks.runStep {low minHour : Int} {t : Tracker}
    {state : Tracker × List JobOutcome} (tracks : Tracks low log state.1) (le : minHour ≤ low)
    (order : Order t) (dbType : String) :
    Tracks low log (runStep minHour order state dbType).1 where
  byTs other := by
    rw [Tracking.runStep, inner_insert]
    split
    · rename_i same
      rw [← same]
      exact (tracks.byTs other).sweep le _ _
    · exact tracks.byTs other
  activity := tracks.activity
  servers other token := by
    rw [Tracking.runStep, inner_insert]
    split
    · rename_i same
      rw [← tracks.servers other token, ← same, sweepTokens]
      refine exists_congr fun noticed => and_congr_left fun above => ?_
      exact lookup_foldl_tokenStep minHour _ _ token noticed (le.trans above)
    · exact tracks.servers other token

theorem Tracks.activityStep {low minHour : Int} {t : Tracker}
    {state : Tracker × List JobOutcome} (tracks : Tracks low log state.1) (le : minHour ≤ low)
    (order : Order t) (dbType : String) :
    Tracks low log (activityStep minHour order state dbType).1 where
  byTs := tracks.byTs
  activity other := by
    rw [Tracking.activityStep, inner_insert]
    split
    · rename_i same
      rw [← same]
      exact (tracks.activity other).sweep le _ _
    · exact tracks.activity other
  servers := tracks.servers

theorem Tracks.snapshot {low now : Int} {t : Tracker}
    (tracks : Tracks low log t) (le : hour now - 24 ≤ low) (order : Order t) :
    Tracks low log (t.snapshot now order).1 := by
  have runs : ∀ (types : List String) (state : Tracker × List JobOutcome),
      Tracks low log state.1 →
        Tracks low log (types.foldl (Tracking.runStep (hour now - 24) order) state).1 := by
    intro types
    induction types with
    | nil => exact fun _ tracks => tracks
    | cons dbType rest ih => exact fun state tracks => ih _ (tracks.runStep le order dbType)
  have activities : ∀ (types : List String) (state : Tracker × List JobOutcome),
      Tracks low log state.1 →
        Tracks low log (types.foldl (Tracking.activityStep (hour now - 24) order) state).1 := by
    intro types
    induction types with
    | nil => exact fun _ tracks => tracks
    | cons dbType rest ih => exact fun state tracks => ih _ (tracks.activityStep le order dbType)
  exact activities order.active _ (runs order.types (t, []) tracks)

/-! ### Every run -/

theorem Run.past {clock : Int} {t : Tracker} (run : Run clock log t) :
    ∀ call ∈ log, call.now ≤ clock := by
  induction run with
  | new clock => simp
  | wait run le ih => exact fun call member => (ih call member).trans le
  | call run event ih =>
    intro call member
    rcases List.mem_append.mp member with old | new
    · exact ih call old
    · rw [List.mem_singleton.mp new]
  | snapshot run order ih => exact ih

variable {low : Int}

/-- The maps agree with the log from every hour on that a later snapshot can read. -/
theorem Run.tracks {clock : Int} {t : Tracker} (run : Run clock log t)
    (le : hour clock - 24 ≤ low) : Tracks low log t := by
  induction run with
  | new clock => exact Tracks.new low
  | wait run later ih =>
    have mono := hour_mono later
    exact ih (by omega)
  | call run event ih => exact (ih le).apply run.past event
  | snapshot run order ih => exact (ih le).snapshot le order

/-! ### What a snapshot says -/

section

variable {t : Tracker} (minHour : Int) (order : Order t)

def ranOutcome (dbType : String) : Option JobOutcome :=
  runOutcome dbType (sweep minHour id (order.hours dbType) (inner t.byTs dbType)).2
    (sortStrings (sweepTokens minHour (order.tokens dbType) (inner t.servers dbType)).2)

def actedOutcome (dbType : String) : Option JobOutcome :=
  activityOutcome dbType
    (sweep minHour pruneAndArchive (order.activeHours dbType) (inner t.activity dbType)).2

/-- No type is visited twice, so each is summed as the snapshot found it. -/
theorem foldl_runStep {types : List String} (distinct : types.Nodup)
    {state : Tracker × List JobOutcome}
    (found : ∀ dbType ∈ types, inner state.1.byTs dbType = inner t.byTs dbType ∧
      inner state.1.servers dbType = inner t.servers dbType) :
    (types.foldl (runStep minHour order) state).1.activity = state.1.activity ∧
      (types.foldl (runStep minHour order) state).2 =
        state.2 ++ types.filterMap (ranOutcome minHour order) := by
  induction types generalizing state with
  | nil => simp
  | cons dbType rest ih =>
    obtain ⟨notLater, restDistinct⟩ := List.nodup_cons.mp distinct
    obtain ⟨sameRuns, sameServers⟩ := found dbType List.mem_cons_self
    have foundLater : ∀ other ∈ rest,
        inner (runStep minHour order state dbType).1.byTs other = inner t.byTs other ∧
          inner (runStep minHour order state dbType).1.servers other = inner t.servers other := by
      intro other later
      have away : other ≠ dbType := fun same => notLater (same ▸ later)
      rw [runStep, inner_insert, inner_insert, if_neg away, if_neg away]
      exact found other (List.mem_cons_of_mem _ later)
    obtain ⟨activitySame, out⟩ := ih restDistinct foundLater
    have here : (runStep minHour order state dbType).2 =
        state.2 ++ (ranOutcome minHour order dbType).toList := by
      rw [ranOutcome, ← sameRuns, ← sameServers]
      rfl
    refine ⟨activitySame, ?_⟩
    rw [List.foldl_cons, out, here, List.append_assoc]
    cases made : ranOutcome minHour order dbType with
    | none => rw [List.filterMap_cons_none made, Option.toList_none, List.nil_append]
    | some o => rw [List.filterMap_cons_some made, Option.toList_some, List.singleton_append]

theorem foldl_activityStep {types : List String} (distinct : types.Nodup)
    {state : Tracker × List JobOutcome}
    (found : ∀ dbType ∈ types, inner state.1.activity dbType = inner t.activity dbType) :
    (types.foldl (activityStep minHour order) state).2 =
      putAll JobOutcome.type withActivity state.2 (types.filterMap (actedOutcome minHour order))
    := by
  induction types generalizing state with
  | nil => rfl
  | cons dbType rest ih =>
    obtain ⟨notLater, restDistinct⟩ := List.nodup_cons.mp distinct
    have foundLater : ∀ other ∈ rest,
        inner (activityStep minHour order state dbType).1.activity other =
          inner t.activity other := by
      intro other later
      have away : other ≠ dbType := fun same => notLater (same ▸ later)
      rw [activityStep, inner_insert, if_neg away]
      exact found other (List.mem_cons_of_mem _ later)
    have here : (activityStep minHour order state dbType).2 =
        (actedOutcome minHour order dbType).elim state.2
          (put JobOutcome.type withActivity state.2) := by
      rw [actedOutcome, ← found dbType List.mem_cons_self]
      unfold activityStep
      cases isMade : activityOutcome dbType (sweep minHour pruneAndArchive
        (order.activeHours dbType) (inner state.1.activity dbType)).2 <;> simp [isMade]
    rw [List.foldl_cons, ih restDistinct foundLater, here]
    cases made : actedOutcome minHour order dbType with
    | none => rw [List.filterMap_cons_none made, Option.elim_none]
    | some o => rw [List.filterMap_cons_some made, Option.elim_some, putAll, putAll, List.foldl_cons]

theorem keepsKey_withActivity : KeepsKey JobOutcome.type withActivity := fun _ _ _ => rfl

theorem type_of_ranOutcome {dbType : String} {o : JobOutcome}
    (made : ranOutcome minHour order dbType = some o) : o.type = dbType := by
  rw [ranOutcome, runOutcome] at made
  split at made
  · cases made
    rfl
  · cases made

theorem type_of_actedOutcome {dbType : String} {o : JobOutcome}
    (made : actedOutcome minHour order dbType = some o) : o.type = dbType := by
  rw [actedOutcome, activityOutcome] at made
  split at made
  · cases made
    rfl
  · cases made

theorem nodup_filterMap_types {types : List String} (distinct : types.Nodup)
    {outcome : String → Option JobOutcome}
    (ownType : ∀ {dbType o}, outcome dbType = some o → o.type = dbType) :
    ((types.filterMap outcome).map JobOutcome.type).Nodup := by
  refine List.Nodup.map_on ?_ (distinct.filterMap ?_)
  · intro o made other alsoMade same
    obtain ⟨dbType, _, isMade⟩ := List.mem_filterMap.mp made
    obtain ⟨otherType, _, isOther⟩ := List.mem_filterMap.mp alsoMade
    rw [ownType isMade, ownType isOther] at same
    rw [same, isOther] at isMade
    exact (Option.some.inj isMade).symm
  · intro dbType otherType o made alsoMade
    rw [← ownType made, ← ownType alsoMade]

end

/-! ### The sums -/

theorem sum_counts (ends : List RunEnd) : (ends.map RunEnd.counts).sum = {
      success := (ends.filter (·.ok)).length
      failed := (ends.filter (!·.ok)).length
      duration := (ends.map RunEnd.duration).sum
      bytes := (ends.map RunEnd.bytes).sum
      rawBytes := (ends.map RunEnd.rawBytes).sum } := by
  induction ends with
  | nil => rfl
  | cons run rest ih =>
    rw [List.map_cons, List.sum_cons, ih, Counts.add_def]
    cases ok : run.ok <;> simp [RunEnd.counts, ok, Int.add_comm]

theorem sum_acts (low : Int) (acts : List (Int × String × Int)) :
    (((acts.map fun act => (act.1, (Pi.single act.2.1 act.2.2 : String → Int))).filter
        (low ≤ ·.1)).map fun entry => pruneAndArchive entry.2).sum =
      (((acts.filter fun act => low ≤ act.1 ∧ act.2.1 = "prune").map (·.2.2)).sum,
        ((acts.filter fun act => low ≤ act.1 ∧ act.2.1 = "archive").map (·.2.2)).sum) := by
  induction acts with
  | nil => rfl
  | cons act rest ih =>
    obtain ⟨at_, op, n⟩ := act
    by_cases above : low ≤ at_
    · rw [List.map_cons, List.filter_cons_of_pos (by simpa using above), List.map_cons,
        List.sum_cons, ih]
      have alone (wanted : String) :
          (((at_, op, n) :: rest).filter fun act => low ≤ act.1 ∧ act.2.1 = wanted).map (·.2.2) =
            (if op = wanted then [n] else []) ++
              (rest.filter fun act => low ≤ act.1 ∧ act.2.1 = wanted).map (·.2.2) := by
        by_cases same : op = wanted <;> simp [above, same]
      rw [alone, alone, List.sum_append, List.sum_append]
      have read (wanted : String) : (Pi.single op n : String → Int) wanted =
          (if op = wanted then [n] else []).sum := by
        by_cases same : op = wanted
        · simp [same]
        · simp [same]
      rw [← read, ← read]
      rfl
    · rw [List.map_cons, List.filter_cons_of_neg (by simpa using above), ih]
      simp [above]

theorem Tracks.sum_runs {t : Tracker} (tracks : Tracks low log t)
    (order : Order t) (dbType : String) :
    (sweep low id (order.hours dbType) (inner t.byTs dbType)).2 =
      ((runs log low dbType).map RunEnd.counts).sum := by
  have total := sweep_total (tracks.byTs dbType) (AddMonoidHom.id Counts) (order.hours_perm dbType)
  refine total.trans ?_
  rw [runEntries, runs, List.filter_map, List.map_map, List.map_map]
  rfl

theorem Tracks.sum_activity {t : Tracker}
    (tracks : Tracks low log t) (order : Order t) (dbType : String) :
    (sweep low pruneAndArchive (order.activeHours dbType) (inner t.activity dbType)).2 =
      ((counted log low dbType "prune").sum, (counted log low dbType "archive").sum) :=
  (sweep_total (tracks.activity dbType) pruneAndArchive (order.activeHours_perm dbType)).trans
    (sum_acts low _)

theorem foldl_tokenStep {order : List String} (distinct : order.Nodup)
    (swept : Map String Int × List String) :
    (order.foldl (tokenStep minHour) swept).2 = swept.2 ++
      order.filter fun token => minHour ≤ (swept.1.lookup token).getD 0 := by
  induction order generalizing swept with
  | nil => simp
  | cons first rest ih =>
    obtain ⟨notLater, restDistinct⟩ := List.nodup_cons.mp distinct
    rw [List.foldl_cons, ih restDistinct, tokenStep]
    by_cases below : (swept.1.lookup first).getD 0 < minHour
    · rw [if_pos below, List.filter_cons_of_neg (by simpa using below)]
      congr 1
      apply List.filter_congr
      intro token later
      have away : token ≠ first := fun same => notLater (same ▸ later)
      rw [AList.lookup_erase_ne away]
    · rw [if_neg below, List.filter_cons_of_pos (by simpa using below), List.append_assoc,
        List.singleton_append]

theorem Tracks.mem_sweepTokens {t : Tracker}
    (tracks : Tracks low log t) (order : Order t) (dbType token : String) :
    token ∈ (sweepTokens low (order.tokens dbType) (inner t.servers dbType)).2 ↔
      NotedFrom log low dbType token := by
  have all := order.tokens_perm dbType
  rw [← tracks.servers dbType token, sweepTokens,
    foldl_tokenStep low (all.nodup_iff.mpr (AList.keys_nodup _)), List.nil_append, List.mem_filter,
    all.mem_iff, ← AList.mem_keys, ← AList.lookup_isSome]
  cases (inner t.servers dbType).lookup token with
  | none => simp
  | some noticed => simp

theorem sortStrings_strict {texts : List String} (distinct : texts.Nodup) :
    (sortStrings texts).Pairwise (· < ·) := by
  have sorted : (sortStrings texts).Pairwise fun a b => decide (a ≤ b) :=
    List.pairwise_mergeSort (by simpa using fun a b c => le_trans) (by simpa using le_total) texts
  have nodup : (sortStrings texts).Nodup := (List.mergeSort_perm texts _).nodup_iff.mpr distinct
  refine (sorted.and nodup).imp fun both => ?_
  exact lt_of_le_of_ne (by simpa using both.1) both.2

theorem sweepTokens_nodup {t : Tracker} (order : Order t) (dbType : String) :
    (sweepTokens minHour (order.tokens dbType) (inner t.servers dbType)).2.Nodup := by
  have distinct := (order.tokens_perm dbType).nodup_iff.mpr (AList.keys_nodup _)
  rw [sweepTokens, foldl_tokenStep minHour distinct, List.nil_append]
  exact distinct.filter _

/-! ### The outcome of a type -/

theorem counted_pos {dbType op : String} {n : Int}
    (member : n ∈ counted log low dbType op) : 0 < n := by
  obtain ⟨act, kept, rfl⟩ := List.mem_map.mp member
  obtain ⟨call, _, isAct⟩ := List.mem_filterMap.mp (List.mem_filter.mp kept).1
  unfold acted at isAct
  split at isAct
  · split at isAct
    · rename_i positive
      cases isAct
      exact positive.2
    · cases isAct
  · cases isAct

theorem sum_counted_pos (log : List Call) (low : Int) (dbType op : String) :
    0 < (counted log low dbType op).sum ↔ counted log low dbType op ≠ [] := by
  have positive : ∀ n ∈ counted log low dbType op, 0 < n := fun n member => counted_pos member
  generalize counted log low dbType op = ns at positive
  induction ns with
  | nil => simp
  | cons n rest ih =>
    have first := positive n List.mem_cons_self
    have nonneg : 0 ≤ rest.sum := by
      cases rest with
      | nil => exact le_refl _
      | cons m more =>
        exact le_of_lt ((ih (List.forall_mem_cons.mp positive).2).mpr
          (List.cons_ne_nil _ _))
    rw [List.sum_cons]
    exact ⟨fun _ => List.cons_ne_nil _ _, fun _ => by omega⟩

/-- The outcome without activity that the log gives a type. -/
def logOutcome (log : List Call) (low : Int) (dbType : String) (servers : List String) :
    JobOutcome where
  type := dbType
  success := ((runs log low dbType).filter (·.ok)).length
  failed := ((runs log low dbType).filter (!·.ok)).length
  duration := ((runs log low dbType).map RunEnd.duration).sum
  kb := toKB ((runs log low dbType).map RunEnd.bytes).sum
  rawKB := toKB ((runs log low dbType).map RunEnd.rawBytes).sum
  servers := servers

theorem exists_ok_or_failed (ends : List RunEnd) :
    (0 < ((ends.filter (·.ok)).length : Int) ∨ 0 < ((ends.filter (!·.ok)).length : Int)) ↔
      ends ≠ [] := by
  cases ends with
  | nil => simp
  | cons run rest => cases ok : run.ok <;> simp [ok]

theorem Tracks.ranOutcome_eq {t : Tracker}
    (tracks : Tracks low log t) (order : Order t) (dbType : String) :
    ranOutcome low order dbType =
      if runs log low dbType = [] then none
      else some (logOutcome log low dbType
        (sortStrings (sweepTokens low (order.tokens dbType) (inner t.servers dbType)).2)) := by
  rw [ranOutcome, runOutcome, tracks.sum_runs order, sum_counts]
  dsimp only
  by_cases none : runs log low dbType = []
  · rw [if_pos none, if_neg ((not_iff_not.mpr (exists_ok_or_failed _)).mpr (not_not.mpr none))]
  · rw [if_neg none, if_pos ((exists_ok_or_failed _).mpr none)]
    rfl

theorem Tracks.actedOutcome_eq {t : Tracker}
    (tracks : Tracks low log t) (order : Order t) (dbType : String) :
    actedOutcome low order dbType =
      if counted log low dbType "prune" ≠ [] ∨ counted log low dbType "archive" ≠ [] then
        some { type := dbType, pruned := (counted log low dbType "prune").sum,
               archived := (counted log low dbType "archive").sum }
      else none := by
  rw [actedOutcome, activityOutcome, tracks.sum_activity order]
  simp only [sum_counted_pos]

variable {dbType : String}

/-- A type with no inner map has nothing to go through. -/
theorem eq_nil_of_absent {κ V : Type} {outer : Map String (Map κ V)} {types : List String}
    (all : types.Perm outer.keys) {order : List κ}
    (through : order.Perm (inner outer dbType).keys) (absent : dbType ∉ types) : order = [] := by
  have notKey : outer.lookup dbType = none := by
    rw [AList.lookup_eq_none, AList.mem_keys, ← all.mem_iff]
    exact absent
  rw [inner, notKey, Option.getD_none, AList.keys_empty] at through
  exact through.eq_nil

theorem ranOutcome_eq_none {t : Tracker} (order : Order t)
    (absent : dbType ∉ order.types) : ranOutcome minHour order dbType = none := by
  rw [ranOutcome, eq_nil_of_absent order.types_perm (order.hours_perm dbType) absent]
  rfl

theorem actedOutcome_eq_none {t : Tracker} (order : Order t)
    (absent : dbType ∉ order.active) : actedOutcome minHour order dbType = none := by
  rw [actedOutcome, eq_nil_of_absent order.active_perm (order.activeHours_perm dbType) absent]
  rfl

theorem ite_mem_eq {outcome : String → Option JobOutcome} {types : List String}
    (absent : ∀ {dbType}, dbType ∉ types → outcome dbType = none) (dbType : String) :
    (if dbType ∈ types then outcome dbType else none) = outcome dbType := by
  by_cases member : dbType ∈ types
  · rw [if_pos member]
  · rw [if_neg member, absent member]

/-- The outcome of a type with its activity, its runs or both. -/
def merged (acted ran : Option JobOutcome) : Option JobOutcome :=
  acted.elim ran fun new => some ((ran.map (withActivity · new)).getD new)

theorem lookup_snapshot (t : Tracker) (now : Int) (order : Order t) :
    ((t.snapshot now order).2.map JobOutcome.type).Nodup ∧
      ∀ dbType, lookup JobOutcome.type (t.snapshot now order).2 dbType =
        merged (actedOutcome (hour now - 24) order dbType)
          (ranOutcome (hour now - 24) order dbType) := by
  have types := order.types_perm.nodup_iff.mpr t.byTs.keys_nodup
  have active := order.active_perm.nodup_iff.mpr t.activity.keys_nodup
  obtain ⟨sameActivity, ran⟩ := @foldl_runStep t (hour now - 24) order _ types (t, [])
    fun _ _ => ⟨rfl, rfl⟩
  have out : (t.snapshot now order).2 = putAll JobOutcome.type withActivity
      (order.types.filterMap (ranOutcome (hour now - 24) order))
      (order.active.filterMap (actedOutcome (hour now - 24) order)) := by
    rw [Tracker.snapshot, foldl_activityStep (hour now - 24) order active
      fun dbType _ => by rw [sameActivity], ran, List.nil_append]
  rw [out]
  refine ⟨nodup_putAll keepsKey_withActivity
    (nodup_filterMap_types types (type_of_ranOutcome _ order)) _, fun dbType => ?_⟩
  rw [lookup_putAll keepsKey_withActivity _
      (nodup_filterMap_types active (type_of_actedOutcome _ order)),
    lookup_filterMap (type_of_actedOutcome _ order), lookup_filterMap (type_of_ranOutcome _ order),
    ite_mem_eq (actedOutcome_eq_none _ order), ite_mem_eq (ranOutcome_eq_none _ order)]
  cases actedOutcome (hour now - 24) order dbType <;> rfl

/-! ### The snapshot and the log -/

theorem outcomeOf_logOutcome {low : Int} {log : List Call} {dbType : String}
    {servers : List String} (sorted : servers.Pairwise (· < ·))
    (noted : ∀ token, token ∈ servers ↔
      runs log low dbType ≠ [] ∧ NotedFrom log low dbType token) :
    OutcomeOf log low { logOutcome log low dbType servers with
      pruned := (counted log low dbType "prune").sum
      archived := (counted log low dbType "archive").sum } :=
  ⟨rfl, rfl, rfl, rfl, rfl, rfl, rfl, sorted, noted⟩

theorem Tracks.servers_of_run {t : Tracker} (tracks : Tracks low log t) (order : Order t)
    (ran : runs log low dbType ≠ []) (token : String) :
    token ∈ sortStrings (sweepTokens low (order.tokens dbType) (inner t.servers dbType)).2 ↔
      runs log low dbType ≠ [] ∧ NotedFrom log low dbType token := by
  rw [sortStrings, List.mem_mergeSort, tracks.mem_sweepTokens order]
  exact ⟨fun noted => ⟨ran, noted⟩, And.right⟩

theorem Tracks.outcomeOf {t : Tracker} (tracks : Tracks low log t)
    (order : Order t) {o : JobOutcome}
    (found : merged (actedOutcome low order dbType) (ranOutcome low order dbType) = some o) :
    OutcomeOf log low o := by
  have sorted := sortStrings_strict (sweepTokens_nodup low order dbType)
  rw [tracks.actedOutcome_eq order, tracks.ranOutcome_eq order] at found
  by_cases ran : runs log low dbType = []
  · rw [if_pos ran] at found
    by_cases acted : counted log low dbType "prune" ≠ [] ∨ counted log low dbType "archive" ≠ []
    · rw [if_pos acted] at found
      cases found
      have outcome := @outcomeOf_logOutcome low log dbType [] List.Pairwise.nil (by simp [ran])
      simpa [logOutcome, ran, toKB] using outcome
    · rw [if_neg acted] at found
      cases found
  · rw [if_neg ran] at found
    have outcome := outcomeOf_logOutcome sorted (tracks.servers_of_run order ran)
    by_cases acted : counted log low dbType "prune" ≠ [] ∨ counted log low dbType "archive" ≠ []
    · rw [if_pos acted] at found
      cases found
      exact outcome
    · rw [if_neg acted] at found
      cases found
      simp only [not_or, not_not] at acted
      simpa [acted, logOutcome] using outcome

theorem snapshot_eq_log {clock : Int} {log : List Call} {t : Tracker} (run : Run clock log t)
    (order : Order t) :
    let low := hour clock - 24
    let out := (t.snapshot clock order).2
    (out.map JobOutcome.type).Nodup ∧
      (∀ dbType, dbType ∈ out.map JobOutcome.type ↔ runs log low dbType ≠ [] ∨
        counted log low dbType "prune" ≠ [] ∨ counted log low dbType "archive" ≠ []) ∧
      ∀ o ∈ out, OutcomeOf log low o := by
  dsimp only
  have tracks := run.tracks (Int.le_refl _)
  obtain ⟨unique, looked⟩ := lookup_snapshot t clock order
  refine ⟨unique, fun dbType => ?_, fun o member => ?_⟩
  · rw [← not_iff_not, ← lookup_eq_none_iff, looked, tracks.actedOutcome_eq order,
      tracks.ranOutcome_eq order]
    by_cases counts : counted log (hour clock - 24) dbType "prune" ≠ [] ∨
        counted log (hour clock - 24) dbType "archive" ≠ []
    · simp [merged, counts]
    · simp [merged, counts]
  · have found := (lookup_eq_some_iff unique).mpr ⟨member, rfl⟩
    rw [looked] at found
    exact tracks.outcomeOf order found

def markedOnce : Tracker := Tracker.apply {} ⟨7200, .mark "mysql" ⟨true, 3, 2048, 4096⟩⟩

theorem snapshot_markedOnce :
    "mysql" ∈ (markedOnce.snapshot 7200 (.asStored markedOnce)).2.map JobOutcome.type :=
  ((snapshot_eq_log (.call (.new 7200) _) (.asStored markedOnce)).2.1 "mysql").mpr
    (.inl (by decide))

end DbBackup.Stats.Tracking
