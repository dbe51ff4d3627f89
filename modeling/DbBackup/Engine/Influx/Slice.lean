import DbBackup.Lib.Cover
import DbBackup.Lib.Time

/-!
Owns what the InfluxDB engine takes from a bucket: `sliceBounds` and the window
query of `runTask` (`internal/database/engine/influx/influx.go`), `sliceCutoff`
and the shard loop of `downloadBucket` (`physical.go`), and the place of
`GetPosition` after `IncrementalDump` (`supported/database/engine/influx/incremental.go`).

A slice is a window of point timestamps, while a write arrives at a wall-clock
time of its own. Contract: which of the points a bucket holds at the last slice
are in some backup of the chain.

Times are nanosecond counts. A position is printed and parsed as RFC 3339 with
nanoseconds, which loses nothing; a `since` that is blank or does not parse is
`none`. A series is a measurement with its tags and one field, so that a later
write of the same series and timestamp overwrites. Does not own deletion.
-/

set_option linter.all false

namespace DbBackup.Engine.Influx

open Lib.Cover Lib.Time

/-! ### The bucket -/

structure Point (Series Value : Type) where
  series : Series
  stamp : Int
  value : Value
deriving DecidableEq

structure Write (Series Value : Type) where
  arrival : Int
  point : Point Series Value
deriving DecidableEq

/-- The writes a server has received, in the order of their arrival. -/
structure History (Series Value : Type) where
  writes : List (Write Series Value)
  ordered : writes.Pairwise fun earlier later => earlier.arrival ≤ later.arrival

variable {Series Value : Type}

def Point.SameKey (point other : Point Series Value) : Prop :=
  point.series = other.series ∧ point.stamp = other.stamp

instance [DecidableEq Series] (point other : Point Series Value) :
    Decidable (point.SameKey other) :=
  inferInstanceAs (Decidable (_ ∧ _))

section Bucket

variable [DecidableEq Series]

def put (bucket : List (Point Series Value)) (write : Write Series Value) :
    List (Point Series Value) :=
  write.point :: bucket.filter fun stored => ¬ write.point.SameKey stored

def bucketOf (writes : List (Write Series Value)) : List (Point Series Value) :=
  writes.foldl put []

def History.bucketAt (history : History Series Value) (now : Int) : List (Point Series Value) :=
  bucketOf (history.writes.filter fun write => write.arrival ≤ now)

end Bucket

/-! ### One backup -/

def incrementalOverlap : Int := 2 * minute

/-- `sliceBounds`: the window of a logical export, `none` for all of the bucket. -/
def sliceBounds (now : Int) (since upTo : Option Int) : Option (Window Int) :=
  match since with
  | none => none
  | some sinceT => some { start := sinceT - incrementalOverlap, stop := upTo.getD now }

/-- `sliceCutoff`: the cutoff and the upper bound of a physical slice. -/
def sliceCutoff (now : Int) (since upTo : Option Int) : Option (Int × Int) :=
  match since with
  | none => none
  | some sinceT =>
    let upper := match upTo with
      | none => now
      | some endT => endT
    some (sinceT - incrementalOverlap, upper)

/-- The `WHERE` clause of `runTask`. -/
def exported (bounds : Option (Window Int)) (stamp : Int) : Bool :=
  match bounds with
  | none => true
  | some window => window.start ≤ stamp ∧ stamp < window.stop

structure ShardGroup where
  startTime : Int
  endTime : Int
deriving DecidableEq

def zeroTime : Int := Instant.zero.nanos

/-- The two `continue`s of the shard loop in `downloadBucket`. -/
def skipsGroup (cutoff : Option (Int × Int)) (group : ShardGroup) : Bool :=
  match cutoff with
  | none => false
  | some (cutoff, upper) =>
    (group.endTime ≠ zeroTime ∧ ¬ cutoff < group.endTime) ∨
      (group.startTime ≠ zeroTime ∧ upper < group.startTime)

/-- The shard group the server keeps a point in, chosen by the point's timestamp. -/
structure ShardLayout where
  groupOf : Int → ShardGroup
  within : ∀ stamp, (groupOf stamp).startTime ≤ stamp ∧ stamp < (groupOf stamp).endTime

inductive Mode where
  | logical
  | physical
deriving DecidableEq

/-- A dump with the clock readings around it: `started` is the `end` of its
window, the series are read one after another, and `GetPosition` is called when
the dump is stored. -/
structure Reading (Series : Type) where
  mode : Mode
  started : Int
  readAt : Series → Int
  position : Int
  stored : started ≤ position
  timely : ∀ series, started ≤ readAt series ∧ readAt series ≤ position

def Reading.selects (layout : ShardLayout) (reading : Reading Series) (since : Option Int)
    (stamp : Int) : Bool :=
  match reading.mode with
  | .logical => exported (sliceBounds reading.started since (some reading.started)) stamp
  | .physical =>
    !skipsGroup (sliceCutoff reading.started since (some reading.started)) (layout.groupOf stamp)

def Reading.Contains [DecidableEq Series] (layout : ShardLayout) (history : History Series Value)
    (reading : Reading Series) (since : Option Int) (point : Point Series Value) : Prop :=
  point ∈ history.bucketAt (reading.readAt point.series) ∧
    reading.selects layout since point.stamp

/-! ### A chain of backups -/

structure Slice (Series : Type) extends Reading Series where
  since : Int

def Slice.Follows (slice : Slice Series) (previous : Reading Series) : Prop :=
  slice.since = previous.position ∧ previous.position ≤ slice.started

/-- One full backup, then slices that each start at the position stored before. -/
structure Chain (Series : Type) where
  full : Reading Series
  slices : List (Slice Series)
  anchored : ∀ first ∈ slices.head?, first.Follows full
  linked : slices.IsChain fun slice next => next.Follows slice.toReading

def Chain.Covers [DecidableEq Series] (layout : ShardLayout) (history : History Series Value)
    (chain : Chain Series) (point : Point Series Value) : Prop :=
  chain.full.Contains layout history none point ∨
    ∃ slice ∈ chain.slices, slice.Contains layout history (some slice.since) point

/-- The time the last backup of the chain reads a series. -/
def Chain.lastRead (chain : Chain Series) (series : Series) : Int :=
  match chain.slices.getLast? with
  | none => chain.full.readAt series
  | some slice => slice.readAt series

/-- A write that had arrived at `now` and was not overwritten by then. -/
def History.Current (history : History Series Value) (now : Int) (write : Write Series Value) :
    Prop :=
  ∃ before after, history.writes = before ++ write :: after ∧ write.arrival ≤ now ∧
    ∀ later ∈ after, later.arrival ≤ now → ¬ later.point.SameKey write.point

/-! ### What a bucket holds -/

section Coverage

variable [DecidableEq Series] {layout : ShardLayout} {history : History Series Value}
  {chain : Chain Series} {write : Write Series Value}

variable {bucket : List (Point Series Value)} {point : Point Series Value}

theorem mem_put :
    point ∈ put bucket write ↔
      point = write.point ∨ point ∈ bucket ∧ ¬ write.point.SameKey point := by
  simp [put]

theorem mem_foldl_put {writes : List (Write Series Value)}  (stored : point ∈ bucket)
    (kept : ∀ later ∈ writes, ¬ later.point.SameKey point) : point ∈ writes.foldl put bucket := by
  induction writes generalizing bucket with
  | nil => exact stored
  | cons head rest ih =>
    rw [List.forall_mem_cons] at kept
    exact ih (mem_put.mpr (.inr ⟨stored, kept.1⟩)) kept.2

theorem mem_writes_of_mem_foldl {writes : List (Write Series Value)}
    (stored : point ∈ writes.foldl put bucket) :
    point ∈ bucket ∨ ∃ write ∈ writes, write.point = point := by
  induction writes generalizing bucket with
  | nil => exact .inl stored
  | cons head rest ih =>
    rcases ih stored with earlier | ⟨write, member, same⟩
    · rw [mem_put] at earlier
      rcases earlier with same | kept
      · exact .inr ⟨head, by simp, same.symm⟩
      · exact .inl kept.1
    · exact .inr ⟨write, List.mem_cons_of_mem head member, same⟩

theorem History.mem_bucketAt_of_current {now : Int} (current : history.Current now write) :
    write.point ∈ history.bucketAt now := by
  obtain ⟨before, after, split, arrived, kept⟩ := current
  rw [bucketAt, bucketOf, split, List.filter_append, List.foldl_append, List.filter_cons]
  simp only [arrived, decide_true, if_true, List.foldl_cons]
  apply mem_foldl_put (mem_put.mpr (.inl rfl))
  intro later member
  rw [List.mem_filter, decide_eq_true_iff] at member
  exact kept later member.1 member.2

theorem History.written_of_mem_bucketAt {now : Int} (stored : point ∈ history.bucketAt now) :
    ∃ write ∈ history.writes, write.point = point ∧ write.arrival ≤ now := by
  rcases mem_writes_of_mem_foldl stored with impossible | ⟨write, member, same⟩
  · simp at impossible
  · rw [List.mem_filter, decide_eq_true_iff] at member
    exact ⟨write, member.1, same, member.2⟩

omit [DecidableEq Series] in
/-- Going back in time, but not before the arrival, there is less to be overwritten by. -/
theorem History.Current.earlier {now earlier : Int} (current : history.Current now write)
    (arrived : write.arrival ≤ earlier) (order : earlier ≤ now) : history.Current earlier write := by
  obtain ⟨before, after, split, -, kept⟩ := current
  exact ⟨before, after, split, arrived, fun later member laterArrived =>
    kept later member (le_trans laterArrived order)⟩

end Coverage

/-! ### What a slice takes -/

def Slice.window (slice : Slice Series) : Window Int where
  start := slice.since - incrementalOverlap
  stop := slice.started

theorem selects_full (layout : ShardLayout) (reading : Reading Series) (stamp : Int) :
    reading.selects layout none stamp := by
  unfold Reading.selects
  cases reading.mode <;> rfl

variable {slice : Slice Series}

theorem selects_logical (logical : slice.mode = .logical) (layout : ShardLayout) (stamp : Int) :
    slice.selects layout (some slice.since) stamp ↔ slice.window.Contains stamp := by
  simp [Reading.selects, logical, sliceBounds, exported, Slice.window, Window.Contains]

/-- A shard group that holds a point of the window is downloaded. -/
theorem selects_of_window {stamp : Int}
    (inside : slice.window.Contains stamp) (layout : ShardLayout) :
    slice.selects layout (some slice.since) stamp := by
  cases mode : slice.mode with
  | logical => exact (selects_logical mode layout stamp).mpr inside
  | physical =>
    have group := layout.within stamp
    simp only [Window.Contains, Slice.window] at inside
    have endsLater : slice.since - incrementalOverlap < (layout.groupOf stamp).endTime := by omega
    have startsBefore : ¬ slice.started < (layout.groupOf stamp).startTime := by omega
    simp [Reading.selects, mode, sliceCutoff, skipsGroup, endsLater, startsBefore]

/-! ### The order of a chain -/

/-- The relation between a slice and any later one of its chain. -/
def Slice.Before (slice later : Slice Series) : Prop :=
  slice.started ≤ later.started ∧ ∀ series, slice.readAt series ≤ later.readAt series

instance : IsTrans (Slice Series) Slice.Before where
  trans _ _ _ first second :=
    ⟨le_trans first.1 second.1, fun series => le_trans (first.2 series) (second.2 series)⟩

theorem Slice.Before.refl (slice : Slice Series) : slice.Before slice :=
  ⟨le_refl _, fun _ => le_refl _⟩

/-- The runs of a chain follow one another: a dump starts when the position of
the one before is stored. -/
theorem Slice.Follows.readAt_le {previous : Reading Series}
    (follows : slice.Follows previous) (series : Series) :
    previous.readAt series ≤ slice.readAt series := by
  have readBefore := (previous.timely series).2
  have startedBefore := (slice.timely series).1
  have order := follows.2
  omega

theorem Slice.Follows.before {slice next : Slice Series} (follows : next.Follows slice.toReading) :
    slice.Before next :=
  ⟨le_trans slice.stored follows.2, follows.readAt_le⟩

theorem Chain.slices_pairwise (chain : Chain Series) : chain.slices.Pairwise Slice.Before :=
  (chain.linked.imp fun _ _ follows => follows.before).pairwise

variable {chain : Chain Series}

theorem Chain.before_last {slice last : Slice Series}
    (member : slice ∈ chain.slices) (isLast : last ∈ chain.slices.getLast?) : slice.Before last := by
  obtain ⟨front, split⟩ := List.getLast?_eq_some_iff.mp isLast
  have ordered := chain.slices_pairwise
  rw [split, List.pairwise_append] at ordered
  rw [split, List.mem_append, List.mem_singleton] at member
  rcases member with inFront | rfl
  · exact ordered.2.2 slice inFront last (List.mem_singleton_self last)
  · exact Slice.Before.refl slice

theorem Chain.readAt_le_lastRead (member : slice ∈ chain.slices) (series : Series) :
    slice.readAt series ≤ chain.lastRead series := by
  unfold Chain.lastRead
  cases last : chain.slices.getLast? with
  | none => simp [List.getLast?_eq_none_iff.mp last] at member
  | some final => exact (Chain.before_last member last).2 series

theorem Chain.full_readAt_le_lastRead (chain : Chain Series) (series : Series) :
    chain.full.readAt series ≤ chain.lastRead series := by
  cases slices : chain.slices with
  | nil => simp [Chain.lastRead, slices]
  | cons first rest =>
    have follows : first.Follows chain.full := chain.anchored first (by simp [slices])
    exact le_trans (follows.readAt_le series) (Chain.readAt_le_lastRead (by simp [slices]) series)

/-! ### Coverage -/

/-- The position of every slice but the last was taken within the overlap. -/
def Chain.PromptPositions (chain : Chain Series) : Prop :=
  ∀ slice ∈ chain.slices.dropLast, slice.position ≤ slice.started + incrementalOverlap

/-- The write arrived before the full backup read its series; or its timestamp
is neither older than the window of some slice that was read after its arrival
nor newer than the windows of all slices. -/
def Chain.Reaches (chain : Chain Series) (write : Write Series Value) : Prop :=
  write.arrival ≤ chain.full.readAt write.point.series ∨
    (∃ slice ∈ chain.slices, write.arrival ≤ slice.readAt write.point.series ∧
      slice.since - incrementalOverlap ≤ write.point.stamp) ∧
    ∀ last ∈ chain.slices.getLast?, write.point.stamp < last.started

theorem Chain.slices_meet (prompt : chain.PromptPositions) :
    chain.slices.IsChain fun slice next => Meets slice.window next.window := by
  rw [List.isChain_iff_forall_rel_of_append_cons_cons]
  intro slice next front rest split
  have follows := List.isChain_iff_forall_rel_of_append_cons_cons.mp chain.linked split
  have position := prompt slice (by simp [split])
  rw [Slice.Follows] at follows
  show next.since - incrementalOverlap ≤ slice.started
  omega

section Coverage

variable [DecidableEq Series] {layout : ShardLayout} {history : History Series Value}
  {chain : Chain Series} {write : Write Series Value}

theorem Reading.contains_of_current {reading : Reading Series} {since : Option Int}
    (current : history.Current (chain.lastRead write.point.series) write)
    (arrived : write.arrival ≤ reading.readAt write.point.series)
    (order : reading.readAt write.point.series ≤ chain.lastRead write.point.series)
    (selected : reading.selects layout since write.point.stamp) :
    reading.Contains layout history since write.point :=
  ⟨History.mem_bucketAt_of_current (current.earlier arrived order), selected⟩

theorem covers_of_reaches (current : history.Current (chain.lastRead write.point.series) write)
    (prompt : chain.PromptPositions) (reached : chain.Reaches write) :
    chain.Covers layout history write.point := by
  rcases reached with arrived | ⟨⟨slice, member, arrived, reachesBack⟩, beforeLast⟩
  · exact .inl (Reading.contains_of_current current arrived
      (chain.full_readAt_le_lastRead _) (selects_full layout chain.full _))
  · obtain ⟨front, rest, split⟩ := List.append_of_mem member
    have gapless := Chain.slices_meet prompt
    have ordered := chain.slices_pairwise
    rw [split] at gapless ordered
    have final : write.point.stamp < ((slice :: rest).getLast (by simp)).window.stop :=
      beforeLast _ (by simp [split, List.getLast?_eq_some_getLast])
    obtain ⟨taken, among, inside⟩ :=
      contains_of_gapless gapless.right_of_append reachesBack final
    have later : slice.Before taken := by
      rcases List.mem_cons.mp among with rfl | inRest
      · exact Slice.Before.refl taken
      · exact List.rel_of_pairwise_cons (List.pairwise_append.mp ordered).2.1 inRest
    have takenMember : taken ∈ chain.slices := by
      rw [split]
      exact List.mem_append_right front among
    exact .inr ⟨taken, takenMember, Reading.contains_of_current current
      (le_trans arrived (later.2 _)) (Chain.readAt_le_lastRead takenMember _)
      (selects_of_window inside layout)⟩

/-- In a logical chain nothing else is covered, apart from a point that was
stored before by another write. -/
theorem reaches_of_covers (logical : ∀ slice ∈ chain.slices, slice.mode = .logical)
    (once : ∀ other ∈ history.writes, other.point = write.point → other = write)
    (covered : chain.Covers layout history write.point) : chain.Reaches write := by
  have arrivedBy : ∀ now, write.point ∈ history.bucketAt now → write.arrival ≤ now := by
    intro now stored
    obtain ⟨other, member, same, arrived⟩ := History.written_of_mem_bucketAt stored
    rw [once other member same] at arrived
    exact arrived
  rcases covered with inFull | ⟨slice, member, stored, selected⟩
  · exact .inl (arrivedBy _ inFull.1)
  · have inside := (selects_logical (logical slice member) layout _).mp selected
    refine .inr ⟨⟨slice, member, arrivedBy _ stored, inside.1⟩, fun last isLast => ?_⟩
    exact lt_of_lt_of_le inside.2 (Chain.before_last member isLast).1

end Coverage

/-! ### Writes between two backups -/

def dailyShards : ShardLayout where
  groupOf stamp := { startTime := stamp / day * day, endTime := stamp / day * day + day }
  within stamp := by
    have positive : 0 < day := by decide
    have down := Int.ediv_mul_le stamp (ne_of_gt positive)
    have up := Int.lt_ediv_add_one_mul_self stamp positive
    rw [Int.add_mul, Int.one_mul] at up
    exact ⟨down, up⟩

/-- A dump that takes no time at all. -/
def readingAt (mode : Mode) (now : Int) : Reading Unit where
  mode := mode
  started := now
  readAt _ := now
  position := now
  stored := le_refl now
  timely _ := ⟨le_refl now, le_refl now⟩

/-- A full backup at time 0 and a slice ten minutes later. -/
def twoBackups (mode : Mode) : Chain Unit where
  full := readingAt mode 0
  slices := [{ toReading := readingAt mode (10 * minute), since := 0 }]
  anchored first isFirst := by
    obtain rfl : _ = first := by simpa using isFirst
    exact ⟨rfl, show (0 : Int) ≤ 10 * minute by decide⟩
  linked := List.isChain_singleton _

def singleWrite (write : Write Unit Nat) : History Unit Nat where
  writes := [write]
  ordered := List.pairwise_singleton _ _

def writeFiveMinutesIn (stamp : Int) : Write Unit Nat where
  arrival := 5 * minute
  point := { series := (), stamp := stamp, value := 7 }

theorem writeFiveMinutesIn_current (mode : Mode) (stamp : Int) :
    (singleWrite (writeFiveMinutesIn stamp)).Current ((twoBackups mode).lastRead ())
      (writeFiveMinutesIn stamp) :=
  ⟨[], [], rfl, by
    show 5 * minute ≤ 10 * minute
    decide, by simp⟩

/-- The write between the two backups is in the bucket at the slice and in
neither backup, whichever way they are taken. -/
def MissedStamp (stamp : Int) : Prop :=
  ∀ mode : Mode,
    (singleWrite (writeFiveMinutesIn stamp)).Current ((twoBackups mode).lastRead ())
        (writeFiveMinutesIn stamp) ∧
      ¬ (twoBackups mode).Covers dailyShards (singleWrite (writeFiveMinutesIn stamp))
        (writeFiveMinutesIn stamp).point

end DbBackup.Engine.Influx
