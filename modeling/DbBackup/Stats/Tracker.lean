import DbBackup.Lib.Buckets
import DbBackup.Lib.Upsert

/-!
Owns the activity tracker: runs, retention counts and server tokens in buckets of one hour, and the
snapshot that sums the last day and deletes what is older.

Go visits the entries of a map in any order; an `Order` is one way through all the maps of a
tracker, and a `Run` may take any.

Does not own the nil tracker, whose methods do nothing, and overflow of the sums.
-/

set_option linter.all false

namespace DbBackup.Stats.Tracking

open Lib.Buckets Lib.Upsert

/-! ### The tracker -/

structure Counts where
  success : Int
  failed : Int
  duration : Int
  bytes : Int
  rawBytes : Int
deriving DecidableEq

/-- What `Mark` is told of one run. -/
structure RunEnd where
  ok : Bool
  duration : Int
  bytes : Int
  rawBytes : Int

def RunEnd.counts (run : RunEnd) : Counts where
  success := if run.ok then 1 else 0
  failed := if run.ok then 0 else 1
  duration := run.duration
  bytes := run.bytes
  rawBytes := run.rawBytes

namespace Counts

@[ext]
theorem ext {a b : Counts} (success : a.success = b.success) (failed : a.failed = b.failed)
    (duration : a.duration = b.duration) (bytes : a.bytes = b.bytes)
    (rawBytes : a.rawBytes = b.rawBytes) : a = b := by
  cases a
  cases b
  simp_all

instance : Zero Counts := ⟨⟨0, 0, 0, 0, 0⟩⟩

instance : Add Counts where
  add a b := ⟨a.success + b.success, a.failed + b.failed, a.duration + b.duration,
    a.bytes + b.bytes, a.rawBytes + b.rawBytes⟩

theorem add_def (a b : Counts) : a + b = ⟨a.success + b.success, a.failed + b.failed,
    a.duration + b.duration, a.bytes + b.bytes, a.rawBytes + b.rawBytes⟩ := rfl

theorem zero_def : (0 : Counts) = ⟨0, 0, 0, 0, 0⟩ := rfl

instance : AddCommMonoid Counts where
  add_assoc a b c := by simp [add_def, Int.add_assoc]
  zero_add a := by simp [add_def, zero_def]
  add_zero a := by simp [add_def, zero_def]
  add_comm a b := by simp [add_def, Int.add_comm]
  nsmul := nsmulRec

end Counts

structure Tracker where
  byTs : Map String (Map Int Counts) := ∅
  /-- By type and hour; a count that is not there is zero. -/
  activity : Map String (Map Int (String → Int)) := ∅
  servers : Map String (Map String Int) := ∅

/-- The inner map of a key; an absent one and an empty one are read alike. -/
def inner {κ V : Type} (outer : Map String (Map κ V)) (key : String) : Map κ V :=
  (outer.lookup key).getD ∅

def hour (now : Int) : Int := now.tdiv 3600

namespace Tracker

def mark (t : Tracker) (now : Int) (dbType : String) (run : RunEnd) : Tracker :=
  { t with byTs := t.byTs.insert dbType (bump (inner t.byTs dbType) (hour now) run.counts) }

def noteServer (t : Tracker) (now : Int) (dbType token : String) : Tracker :=
  if token = "" then t
  else
    let tokens := (inner t.servers dbType).insert token (hour now)
    { t with servers := t.servers.insert dbType tokens }

def recordActivity (t : Tracker) (now : Int) (dbType op : String) (n : Int) : Tracker :=
  if n ≤ 0 then t
  else
    let hours := bump (inner t.activity dbType) (hour now) (Pi.single op n)
    { t with activity := t.activity.insert dbType hours }

end Tracker

/-! ### The snapshot -/

structure JobOutcome where
  type : String
  success : Int := 0
  failed : Int := 0
  duration : Int := 0
  pruned : Int := 0
  archived : Int := 0
  kb : Int := 0
  rawKB : Int := 0
  servers : List String := []
deriving DecidableEq

def toKB (n : Int) : Int := if n ≤ 0 then 0 else (n + 512) / 1024

/-- One order of the keys of every map that a snapshot goes through. -/
structure Order (t : Tracker) where
  types : List String
  types_perm : types.Perm t.byTs.keys
  tokens : String → List String
  tokens_perm : ∀ dbType, (tokens dbType).Perm (inner t.servers dbType).keys
  hours : String → List Int
  hours_perm : ∀ dbType, (hours dbType).Perm (inner t.byTs dbType).keys
  active : List String
  active_perm : active.Perm t.activity.keys
  activeHours : String → List Int
  activeHours_perm : ∀ dbType, (activeHours dbType).Perm (inner t.activity dbType).keys

def Order.asStored (t : Tracker) : Order t where
  types := t.byTs.keys
  types_perm := .refl _
  tokens dbType := (inner t.servers dbType).keys
  tokens_perm _ := .refl _
  hours dbType := (inner t.byTs dbType).keys
  hours_perm _ := .refl _
  active := t.activity.keys
  active_perm := .refl _
  activeHours dbType := (inner t.activity dbType).keys
  activeHours_perm _ := .refl _

def tokenStep (minHour : Int) (swept : Map String Int × List String) (token : String) :
    Map String Int × List String :=
  if (swept.1.lookup token).getD 0 < minHour then (swept.1.erase token, swept.2)
  else (swept.1, swept.2 ++ [token])

def sweepTokens (minHour : Int) (order : List String) (tokens : Map String Int) :
    Map String Int × List String :=
  order.foldl (tokenStep minHour) (tokens, [])

def sortStrings (texts : List String) : List String :=
  texts.mergeSort fun a b => decide (a ≤ b)

def runOutcome (dbType : String) (total : Counts) (servers : List String) : Option JobOutcome :=
  let o : JobOutcome := {
    type := dbType, success := total.success, failed := total.failed, duration := total.duration,
    kb := toKB total.bytes, rawKB := toKB total.rawBytes, servers := servers }
  if 0 < o.success ∨ 0 < o.failed then some o else none

def runStep {t : Tracker} (minHour : Int) (order : Order t) (state : Tracker × List JobOutcome)
    (dbType : String) : Tracker × List JobOutcome :=
  let tokens := sweepTokens minHour (order.tokens dbType) (inner state.1.servers dbType)
  let buckets := sweep minHour id (order.hours dbType) (inner state.1.byTs dbType)
  ({ state.1 with
      byTs := state.1.byTs.insert dbType buckets.1
      servers := state.1.servers.insert dbType tokens.1 },
    state.2 ++ (runOutcome dbType buckets.2 (sortStrings tokens.2)).toList)

def pruneAndArchive : (String → Int) →+ Int × Int where
  toFun ops := (ops "prune", ops "archive")
  map_zero' := rfl
  map_add' _ _ := rfl

def activityOutcome (dbType : String) (total : Int × Int) : Option JobOutcome :=
  if 0 < total.1 ∨ 0 < total.2 then
    some { type := dbType, pruned := total.1, archived := total.2 }
  else none

/-- `out[i]` for the index that `outcomeIndex` finds. -/
def withActivity (old new : JobOutcome) : JobOutcome :=
  { old with pruned := new.pruned, archived := new.archived }

def activityStep {t : Tracker} (minHour : Int) (order : Order t)
    (state : Tracker × List JobOutcome) (dbType : String) : Tracker × List JobOutcome :=
  let hours := sweep minHour pruneAndArchive (order.activeHours dbType)
    (inner state.1.activity dbType)
  ({ state.1 with activity := state.1.activity.insert dbType hours.1 },
    match activityOutcome dbType hours.2 with
    | none => state.2
    | some o => put JobOutcome.type withActivity state.2 o)

def Tracker.snapshot (t : Tracker) (now : Int) (order : Order t) : Tracker × List JobOutcome :=
  let minHour := hour now - 24
  let runs := order.types.foldl (runStep minHour order) (t, [])
  order.active.foldl (activityStep minHour order) runs

/-! ### Calls and runs -/

inductive Event where
  | mark (dbType : String) (run : RunEnd)
  | noteServer (dbType token : String)
  | recordActivity (dbType op : String) (n : Int)

structure Call where
  now : Int
  event : Event

def Tracker.apply (t : Tracker) (call : Call) : Tracker :=
  match call.event with
  | .mark dbType run => t.mark call.now dbType run
  | .noteServer dbType token => t.noteServer call.now dbType token
  | .recordActivity dbType op n => t.recordActivity call.now dbType op n

/-- A tracker after calls under a clock that does not go back. Snapshots may come anywhere and
leave no trace in the log. -/
inductive Run : Int → List Call → Tracker → Prop where
  | new (clock : Int) : Run clock [] {}
  | wait {clock later : Int} {log : List Call} {t : Tracker} (run : Run clock log t)
      (le : clock ≤ later) : Run later log t
  | call {clock : Int} {log : List Call} {t : Tracker} (run : Run clock log t) (event : Event) :
      Run clock (log ++ [⟨clock, event⟩]) (t.apply ⟨clock, event⟩)
  | snapshot {clock : Int} {log : List Call} {t : Tracker} (run : Run clock log t)
      (order : Order t) : Run clock log (t.snapshot clock order).1

end DbBackup.Stats.Tracking
