import DbBackup.Lib.AncestorDepth

/-!
Owns `orderTablesByInheritance` of `internal/database/engine/postgres/postgres.go`:
the depth of every table below its inheritance parents and the stable sort by it.

Contract: the depth computation ends for every parent relation, cycles included; for
an acyclic one it finds the longest ancestor path, so every table comes after its
listed ancestors and tables of one depth keep their order
(`orderTablesByInheritance_spec`).

The rows of the catalogue query are an input; `none` is a query that failed, after
which the code keeps the tables as they are.
-/

set_option linter.all false

namespace DbBackup.Engine.Postgres.Inheritance

open Lib.AncestorDepth

/-- A row of `pg_inherits`: the child, then the parent, each as `schema.relation`. -/
abbrev Link := String × String

/-- `parents[child]`, in the order of the rows. -/
def parentsOf (links : List Link) (child : String) : List String :=
  (links.filter fun link => link.1 = child).map Prod.snd

/-- What the recursion shares: the map `depth` and the set `seen`. -/
structure Memo where
  depth : String → Option Nat
  seen : List String

def Memo.enter (memo : Memo) (table : String) : Memo :=
  { memo with seen := table :: memo.seen }

/-- `delete(seen, t)` and `depth[t] = max`. -/
def Memo.leave (memo : Memo) (table : String) (max : Nat) : Memo where
  depth := Function.update memo.depth table (some max)
  seen := memo.seen.erase table

/-- The loop of `compute` over the parents, with `max` so far. -/
def scanParents (compute : String → Memo → Option (Nat × Memo)) :
    List String → Nat → Memo → Option (Nat × Memo)
  | [], max, memo => some (max, memo)
  | parent :: rest, max, memo => do
      let (depth, memo) ← compute parent memo
      scanParents compute rest (if max < depth + 1 then depth + 1 else max) memo

/-- `none` is a recursion deeper than `fuel`. -/
def compute (links : List Link) : Nat → String → Memo → Option (Nat × Memo)
  | 0, _, _ => none
  | fuel + 1, table, memo =>
    match memo.depth table with
    | some depth => some (depth, memo)
    | none =>
      if table ∈ memo.seen then some (0, memo)
      else do
        let (max, memo) ←
          scanParents (compute links fuel) (parentsOf links table) 0 (memo.enter table)
        return (max, memo.leave table max)

/-- Every table starts with an empty `seen`. -/
def computeAll (links : List Link) (fuel : Nat) (tables : List String)
    (depth : String → Option Nat) : Option (String → Option Nat) :=
  tables.foldlM (fun depth table => do
    let (_, memo) ← compute links fuel table ⟨depth, []⟩
    return memo.depth) depth

def orderTablesByInheritance (fuel : Nat) (links? : Option (List Link))
    (tables : List String) : Option (List String) :=
  match links? with
  | none => some tables
  | some links => do
      let depth ← computeAll links fuel tables fun _ => none
      return sortByRank (fun table => (depth table).getD 0) tables

/-! ### One call -/

variable {links : List Link}

variable {fuel : Nat} {table : String}

/-- The ways a call returns: a known depth, a table in progress, or a full scan. -/
theorem compute_cases {memo after : Memo} {depth : Nat}
    (returned : compute links (fuel + 1) table memo = some (depth, after)) :
    (memo.depth table = some depth ∧ after = memo) ∨
    (memo.depth table = none ∧ table ∈ memo.seen ∧ depth = 0 ∧ after = memo) ∨
    (memo.depth table = none ∧ table ∉ memo.seen ∧
      ∃ scanned, scanParents (compute links fuel) (parentsOf links table) 0 (memo.enter table) =
          some (depth, scanned) ∧ after = scanned.leave table depth) := by
  rw [compute] at returned
  cases known : memo.depth table with
  | some found =>
    rw [known] at returned
    obtain ⟨rfl, rfl⟩ := Prod.mk.inj (Option.some.inj returned)
    exact .inl ⟨rfl, rfl⟩
  | none =>
    rw [known] at returned
    by_cases inProgress : table ∈ memo.seen
    · simp only [if_pos inProgress, Option.some.injEq, Prod.mk.injEq] at returned
      exact .inr (.inl ⟨rfl, inProgress, returned.1.symm, returned.2.symm⟩)
    · simp only [if_neg inProgress] at returned
      obtain ⟨⟨max, scanned⟩, scan, result⟩ := Option.bind_eq_some_iff.mp returned
      obtain ⟨rfl, rfl⟩ := Prod.mk.inj (Option.some.inj result)
      exact .inr (.inr ⟨rfl, inProgress, scanned, scan, rfl⟩)

theorem scanParents_cons {next : String → Memo → Option (Nat × Memo)} {parent : String}
    {rest : List String} {max result : Nat} {memo after : Memo}
    (scan : scanParents next (parent :: rest) max memo = some (result, after)) :
    ∃ depth between, next parent memo = some (depth, between) ∧
      scanParents next rest (if max < depth + 1 then depth + 1 else max) between =
        some (result, after) := by
  obtain ⟨⟨depth, between⟩, call, scanRest⟩ := Option.bind_eq_some_iff.mp scan
  exact ⟨depth, between, call, scanRest⟩

/-! ### `seen` on return -/

theorem scanParents_seen {next : String → Memo → Option (Nat × Memo)}
    (restores : ∀ table memo depth after,
      next table memo = some (depth, after) → after.seen = memo.seen)
    (parents : List String) :
    ∀ {max result : Nat} {memo after : Memo},
      scanParents next parents max memo = some (result, after) → after.seen = memo.seen := by
  induction parents with
  | nil =>
    intro max result memo after scan
    rw [(Prod.mk.inj (Option.some.inj scan)).2]
  | cons parent rest ih =>
    intro max result memo after scan
    obtain ⟨depth, between, call, scanRest⟩ := scanParents_cons scan
    rw [ih scanRest, restores parent memo depth between call]

theorem compute_seen (fuel : Nat) : ∀ table memo depth after,
      compute links fuel table memo = some (depth, after) → after.seen = memo.seen := by
  induction fuel with
  | zero =>
    intro table memo depth after returned
    exact absurd returned (Option.some_ne_none _).symm
  | succ fuel ih =>
    intro table memo depth after returned
    rcases compute_cases returned with ⟨-, rfl⟩ | ⟨-, -, -, rfl⟩ | ⟨-, -, scanned, scan, rfl⟩
    · rfl
    · rfl
    · have kept := scanParents_seen ih _ scan
      rw [Memo.leave, kept, Memo.enter, List.erase_cons_head]

/-! ### Every call returns -/

/-- How many rows have a child that is not in progress. -/
def openLinks (links : List Link) (seen : List String) : Nat :=
  (links.filter fun link => link.1 ∉ seen).length

theorem openLinks_enter {seen : List String} (notSeen : table ∉ seen)
    (hasParents : parentsOf links table ≠ []) :
    openLinks links (table :: seen) < openLinks links seen := by
  obtain ⟨link, isLink, isChild⟩ : ∃ link ∈ links, link.1 = table := by
    by_contra none
    refine hasParents (List.map_eq_nil_iff.mpr (List.filter_eq_nil_iff.mpr ?_))
    intro link isLink isChild
    exact none ⟨link, isLink, of_decide_eq_true isChild⟩
  have fewer : links.filter (fun link => decide (link.1 ∉ table :: seen)) =
      (links.filter fun link => decide (link.1 ∉ seen)).filter
        fun link => decide (link.1 ≠ table) := by
    rw [List.filter_filter]
    refine List.filter_congr fun link _ => ?_
    simp [List.mem_cons, not_or]
  rw [openLinks, fewer, openLinks]
  refine List.length_filter_lt_length_iff_exists.mpr ⟨link, ?_, ?_⟩
  · exact List.mem_filter.mpr ⟨isLink, decide_eq_true (isChild ▸ notSeen)⟩
  · simp [isChild]

theorem scanParents_returns {next : String → Memo → Option (Nat × Memo)} {seen : List String}
    (returns : ∀ table memo, memo.seen = seen → ∃ depth after, next table memo = some (depth, after))
    (restores : ∀ table memo depth after,
      next table memo = some (depth, after) → after.seen = memo.seen)
    (parents : List String) :
    ∀ (max : Nat) (memo : Memo), memo.seen = seen →
      ∃ result after, scanParents next parents max memo = some (result, after) := by
  induction parents with
  | nil => exact fun max memo _ => ⟨max, memo, rfl⟩
  | cons parent rest ih =>
    intro max memo isSeen
    obtain ⟨depth, between, call⟩ := returns parent memo isSeen
    obtain ⟨result, after, scanRest⟩ :=
      ih (if max < depth + 1 then depth + 1 else max) between
        ((restores parent memo depth between call).trans isSeen)
    exact ⟨result, after, by rw [scanParents, call]; exact scanRest⟩

/-- The recursion is never deeper than the rows whose child is not in progress. -/
theorem compute_returns (fuel : Nat) : ∀ table memo, openLinks links memo.seen < fuel →
      ∃ depth after, compute links fuel table memo = some (depth, after) := by
  induction fuel with
  | zero => exact fun table memo below => absurd below (Nat.not_lt_zero _)
  | succ fuel ih =>
    intro table memo below
    rw [compute]
    cases memo.depth table with
    | some depth => exact ⟨depth, memo, rfl⟩
    | none =>
      by_cases inProgress : table ∈ memo.seen
      · exact ⟨0, memo, if_pos inProgress⟩
      · simp only [if_neg inProgress]
        have scans : ∃ max scanned, scanParents (compute links fuel) (parentsOf links table) 0
            (memo.enter table) = some (max, scanned) := by
          by_cases hasParents : parentsOf links table = []
          · rw [hasParents]
            exact ⟨0, _, rfl⟩
          · have fewer := openLinks_enter inProgress hasParents
            refine scanParents_returns ?_ (compute_seen fuel) _ 0 _ rfl
            intro parent memo' isSeen
            refine ih parent memo' ?_
            rw [isSeen]
            exact Nat.lt_of_lt_of_le fewer (Nat.le_of_lt_succ below)
        obtain ⟨max, scanned, scan⟩ := scans
        exact ⟨max, scanned.leave table max, by rw [scan]; rfl⟩

/-! ### The depth is the longest ancestor path -/

def Sound (links : List Link) (depth : String → Option Nat) : Prop :=
  ∀ table found, depth table = some found → LongestPath (parentsOf links) table found

theorem Sound.update {depth : String → Option Nat} (sound : Sound links depth)
    {found : Nat} (isLongest : LongestPath (parentsOf links) table found) :
    Sound links (Function.update depth table (some found)) := by
  intro other result isResult
  by_cases same : other = table
  · subst same
    rw [Function.update_self] at isResult
    exact Option.some.inj isResult ▸ isLongest
  · rw [Function.update_of_ne same] at isResult
    exact sound other result isResult

def Known (depth : String → Option Nat) (table : String) : Prop :=
  ∃ found, depth table = some found

theorem Known.update {depth : String → Option Nat} {other : String} (known : Known depth other)
    (table : String) (found : Nat) : Known (Function.update depth table (some found)) other := by
  by_cases same : other = table
  · exact ⟨found, by rw [same, Function.update_self]⟩
  · rw [Known, Function.update_of_ne same]
    exact known

/-- What a call establishes when every table in progress descends from its table. -/
def Longest (links : List Link) (next : String → Memo → Option (Nat × Memo)) : Prop :=
  ∀ table memo depth after, next table memo = some (depth, after) → Sound links memo.depth →
    (∀ lower ∈ memo.seen, Ancestor (parentsOf links) table lower) →
      LongestPath (parentsOf links) table depth ∧ Sound links after.depth ∧
        Known after.depth table ∧ ∀ other, Known memo.depth other → Known after.depth other

/-- The greatest of `start` and the longest path plus one of each parent. -/
structure Greatest (links : List Link) (parents : List String) (start result : Nat) : Prop where
  bounded : ∀ parent ∈ parents,
    ∃ own, LongestPath (parentsOf links) parent own ∧ own + 1 ≤ result
  start_le : start ≤ result
  reached : result = start ∨
    ∃ parent ∈ parents, ∃ own, LongestPath (parentsOf links) parent own ∧ result = own + 1

theorem Greatest.cons {parent : String} {rest : List String} {start own result : Nat}
    (isLongest : LongestPath (parentsOf links) parent own)
    (greatest : Greatest links rest (if start < own + 1 then own + 1 else start) result) :
    Greatest links (parent :: rest) start result := by
  have above : own + 1 ≤ result ∧ start ≤ result := by
    have startLe := greatest.start_le
    split at startLe <;> omega
  refine ⟨?_, above.2, ?_⟩
  · intro other member
    rcases List.mem_cons.mp member with rfl | inRest
    · exact ⟨own, isLongest, above.1⟩
    · exact greatest.bounded other inRest
  · rcases greatest.reached with isStart | ⟨other, inRest, found⟩
    · by_cases less : start < own + 1
      · rw [if_pos less] at isStart
        exact .inr ⟨parent, List.mem_cons_self, own, isLongest, isStart⟩
      · rw [if_neg less] at isStart
        exact .inl isStart
    · exact .inr ⟨other, List.mem_cons_of_mem _ inRest, found⟩

theorem scanParents_longest {next : String → Memo → Option (Nat × Memo)}
    (longest : Longest links next)
    (restores : ∀ table memo depth after,
      next table memo = some (depth, after) → after.seen = memo.seen)
    (parents : List String) :
    ∀ {max result : Nat} {memo after : Memo},
      scanParents next parents max memo = some (result, after) → Sound links memo.depth →
      (∀ parent ∈ parents, ∀ lower ∈ memo.seen, Ancestor (parentsOf links) parent lower) →
        Greatest links parents max result ∧ Sound links after.depth ∧
          ∀ other, Known memo.depth other → Known after.depth other := by
  induction parents with
  | nil =>
    intro max result memo after scan sound _
    obtain ⟨rfl, rfl⟩ := Prod.mk.inj (Option.some.inj scan)
    exact ⟨⟨fun _ member => absurd member List.not_mem_nil, Nat.le_refl _, .inl rfl⟩, sound,
      fun _ known => known⟩
  | cons parent rest ih =>
    intro max result memo after scan sound above
    obtain ⟨depth, between, call, scanRest⟩ := scanParents_cons scan
    obtain ⟨isLongest, betweenSound, -, keeps⟩ :=
      longest parent memo depth between call sound (above parent List.mem_cons_self)
    have aboveRest : ∀ other ∈ rest, ∀ lower ∈ between.seen,
        Ancestor (parentsOf links) other lower := by
      rw [restores parent memo depth between call]
      exact (List.forall_mem_cons.mp above).2
    obtain ⟨greatest, afterSound, keepsRest⟩ :=
      ih scanRest betweenSound aboveRest
    exact ⟨greatest.cons isLongest, afterSound, fun other known =>
      keepsRest other (keeps other known)⟩

theorem compute_longest (acyclic : Acyclic (parentsOf links)) (fuel : Nat) :
    Longest links (compute links fuel) := by
  induction fuel with
  | zero =>
    intro table memo depth after returned
    exact absurd returned (Option.some_ne_none _).symm
  | succ fuel ih =>
    intro table memo depth after returned sound above
    rcases compute_cases returned with
      ⟨known, rfl⟩ | ⟨-, inProgress, -, -⟩ | ⟨-, -, scanned, scan, rfl⟩
    · exact ⟨sound table depth known, sound, ⟨depth, known⟩, fun _ isKnown => isKnown⟩
    -- a table in progress would be its own ancestor
    · exact absurd (above table inProgress) (acyclic table)
    · have aboveParents : ∀ parent ∈ parentsOf links table, ∀ lower ∈ (memo.enter table).seen,
          Ancestor (parentsOf links) parent lower := by
        intro parent edge lower isLower
        rcases List.mem_cons.mp isLower with rfl | inSeen
        · exact .single edge
        · exact .head edge (above lower inSeen)
      obtain ⟨greatest, scannedSound, keeps⟩ :=
        scanParents_longest ih (compute_seen fuel) _ scan sound aboveParents
      have isLongest : LongestPath (parentsOf links) table depth :=
        .of_parents greatest.bounded greatest.reached
      exact ⟨isLongest, scannedSound.update isLongest, ⟨depth, Function.update_self ..⟩,
        fun other known => (keeps other known).update table depth⟩

/-! ### All tables -/

theorem computeAll_cons {rest : List String} {start after : String → Option Nat}
    (ran : computeAll links fuel (table :: rest) start = some after) :
    ∃ depth memo, compute links fuel table ⟨start, []⟩ = some (depth, memo) ∧
      computeAll links fuel rest memo.depth = some after := by
  rw [computeAll, List.foldlM_cons] at ran
  obtain ⟨next, first, ranRest⟩ := Option.bind_eq_some_iff.mp ran
  obtain ⟨⟨depth, memo⟩, call, isNext⟩ := Option.bind_eq_some_iff.mp first
  rw [← Option.some.inj isNext] at ranRest
  exact ⟨depth, memo, call, ranRest⟩

theorem computeAll_returns (enough : links.length < fuel) (tables : List String) :
    ∀ start, ∃ depth, computeAll links fuel tables start = some depth := by
  induction tables with
  | nil => exact fun start => ⟨start, rfl⟩
  | cons table rest ih =>
    intro start
    have below : openLinks links [] < fuel :=
      Nat.lt_of_le_of_lt (List.length_filter_le _ _) enough
    obtain ⟨depth, memo, call⟩ := compute_returns fuel table ⟨start, []⟩ below
    obtain ⟨after, ranRest⟩ := ih memo.depth
    refine ⟨after, ?_⟩
    rw [computeAll, List.foldlM_cons, call]
    exact ranRest

theorem computeAll_longest (acyclic : Acyclic (parentsOf links)) (tables : List String) :
    ∀ {start after : String → Option Nat}, computeAll links fuel tables start = some after →
      Sound links start → Sound links after ∧ (∀ table ∈ tables, Known after table) ∧
        ∀ other, Known start other → Known after other := by
  induction tables with
  | nil =>
    intro start after ran sound
    rw [← Option.some.inj ran]
    exact ⟨sound, fun _ member => absurd member List.not_mem_nil, fun _ known => known⟩
  | cons table rest ih =>
    intro start after ran sound
    obtain ⟨depth, memo, call, ranRest⟩ := computeAll_cons ran
    obtain ⟨-, memoSound, tableKnown, keeps⟩ :=
      compute_longest acyclic fuel table ⟨start, []⟩ depth memo call sound
        fun _ member => absurd member List.not_mem_nil
    obtain ⟨afterSound, restKnown, keepsRest⟩ := ih ranRest memoSound
    refine ⟨afterSound, ?_, fun other known => keepsRest other (keeps other known)⟩
    intro other member
    rcases List.mem_cons.mp member with rfl | inRest
    · exact keepsRest other tableKnown
    · exact restKnown other inRest

/-- No table stands before one of its ancestors. -/
def AncestorsFirst (links : List Link) (ordered : List String) : Prop :=
  ordered.Pairwise fun earlier later => ¬ Ancestor (parentsOf links) later earlier

/-- The tables of each depth are listed in the order of `tables`. -/
def KeepsOrder (links : List Link) (tables ordered : List String) : Prop :=
  ∃ depth : String → Nat,
    (∀ table ∈ tables, LongestPath (parentsOf links) table (depth table)) ∧
      ∀ level, ordered.filter (fun table => depth table = level) =
        tables.filter fun table => depth table = level

theorem ancestorsFirst_of_pairwise {rank : String → Nat} {ordered : List String}
    (isLongest : ∀ table ∈ ordered, LongestPath (parentsOf links) table (rank table))
    (sorted : ordered.Pairwise fun a b => rank a ≤ rank b) : AncestorsFirst links ordered := by
  refine List.Pairwise.imp_of_mem ?_ sorted
  intro earlier later earlierIn laterIn ranked isAncestor
  have less := LongestPath.lt_of_ancestor isAncestor (isLongest later laterIn)
    (isLongest earlier earlierIn)
  exact absurd ranked (Nat.not_le_of_lt less)

/-- A recursion depth beyond the number of rows is never needed, whatever the rows;
for an acyclic relation the result follows the longest ancestor paths. -/
theorem orderTablesByInheritance_spec (links : List Link) (tables : List String) :
    ∀ fuel, links.length < fuel →
      ∃ ordered, orderTablesByInheritance fuel (some links) tables = some ordered ∧
        ordered.Perm tables ∧
        (Acyclic (parentsOf links) →
          AncestorsFirst links ordered ∧ KeepsOrder links tables ordered) := by
  intro fuel enough
  obtain ⟨depth, ran⟩ := computeAll_returns enough tables fun _ => none
  refine ⟨_, by rw [orderTablesByInheritance, ran]; rfl, perm_sortByRank _ tables, ?_⟩
  intro acyclic
  have startSound : Sound links fun _ => none := fun _ _ isSome => nomatch isSome
  obtain ⟨sound, known, -⟩ := computeAll_longest acyclic tables ran startSound
  have isLongest : ∀ table ∈ tables,
      LongestPath (parentsOf links) table ((depth table).getD 0) := by
    intro table member
    obtain ⟨found, isFound⟩ := known table member
    rw [isFound]
    exact sound table found isFound
  refine ⟨?_, _, isLongest, filter_sortByRank _ tables⟩
  refine ancestorsFirst_of_pairwise ?_ (pairwise_sortByRank _ tables)
  intro table member
  exact isLongest table ((perm_sortByRank _ tables).mem_iff.mp member)

/-- `d` inherits from `b` and `c`, which inherit from `a`; `c` is not listed. -/
def diamond : List Link :=
  [("d", "b"), ("d", "c"), ("b", "a"), ("c", "a")]

def diamondRank (table : String) : Nat :=
  if table = "d" then 2 else if table = "a" then 0 else 1

theorem mem_parentsOf {child parent : String} :
    parent ∈ parentsOf links child ↔ (child, parent) ∈ links := by
  simp [parentsOf]

theorem acyclic_diamond : Acyclic (parentsOf diamond) := by
  refine Acyclic.of_rank _ diamondRank ?_
  intro child parent edge
  have falls : ∀ link ∈ diamond, diamondRank link.2 < diamondRank link.1 := by decide
  exact falls _ (mem_parentsOf.mp edge)

theorem diamond_ordered :
    ∃ ordered, orderTablesByInheritance 5 (some diamond) ["d", "b", "a"] = some ordered ∧
      ordered.Perm ["d", "b", "a"] ∧ AncestorsFirst diamond ordered ∧
        KeepsOrder diamond ["d", "b", "a"] ordered := by
  obtain ⟨ordered, returned, isPerm, acyclicOrder⟩ :=
    orderTablesByInheritance_spec diamond ["d", "b", "a"] 5 (by decide)
  exact ⟨ordered, returned, isPerm, acyclicOrder acyclic_diamond⟩

end DbBackup.Engine.Postgres.Inheritance
