import DbBackup.Lib.Run
import Mathlib.Data.List.Sort
import Mathlib.Data.String.Basic

/-!
Owns the paging of `dumpDatabase` and `dumpPage` of
`internal/database/engine/couch/couch.go`: the requests to `_all_docs` with
`limit` and `skip`, and the changes other clients make between them.

Contract: `skip` counts the documents written so far, so a page continues where the
last one stopped only if as many documents lie up to the last written id as were
written. Under that condition every document that stays is written exactly once
(`staying_written_once`); a deletion behind the offset loses one.

Does not own the text written for a document, or a request that fails.
-/

set_option linter.all false

namespace DbBackup.Engine.Couch.Paging

open Lib.Run

variable {Id Doc : Type} [LinearOrder Id]

/-! ### The documents of a database -/

/-- The documents as `_all_docs` lists them, ordered by id. -/
structure Contents (Id Doc : Type) [LinearOrder Id] where
  rows : List (Id × Doc)
  ordered : rows.Pairwise fun one other => one.1 < other.1

def Contents.upTo (contents : Contents Id Doc) (id : Id) : List (Id × Doc) :=
  contents.rows.filter fun row => row.1 ≤ id

def Contents.above (contents : Contents Id Doc) (id : Id) : List (Id × Doc) :=
  contents.rows.filter fun row => id < row.1

def Contents.below (contents : Contents Id Doc) (id : Id) : List (Id × Doc) :=
  contents.rows.filter fun row => row.1 < id

theorem Contents.above_ordered (contents : Contents Id Doc) (id : Id) :
    (contents.above id).Pairwise fun one other => one.1 < other.1 :=
  contents.ordered.filter _

def Contents.put (contents : Contents Id Doc) (id : Id) (doc : Doc) : Contents Id Doc where
  rows := contents.below id ++ (id, doc) :: contents.above id
  ordered := by
    refine List.pairwise_append.mpr ⟨contents.ordered.filter _, ?_, ?_⟩
    · refine List.pairwise_cons.mpr ⟨fun row member => ?_, contents.above_ordered id⟩
      exact of_decide_eq_true (List.mem_filter.mp member).2
    · intro row before other after
      have less : row.1 < id := of_decide_eq_true (List.mem_filter.mp before).2
      rcases List.mem_cons.mp after with rfl | above
      · exact less
      · exact lt_trans less (of_decide_eq_true (List.mem_filter.mp above).2)

def Contents.delete (contents : Contents Id Doc) (id : Id) : Contents Id Doc where
  rows := contents.rows.filter fun row => row.1 ≠ id
  ordered := contents.ordered.filter _

/-- In the order of ids, the rows up to an id come first. -/
theorem Contents.rows_eq (contents : Contents Id Doc) (id : Id) :
    contents.rows = contents.upTo id ++ contents.above id := by
  obtain ⟨rows, ordered⟩ := contents
  unfold upTo above
  induction rows with
  | nil => rfl
  | cons row rest ih =>
    obtain ⟨first, others⟩ := List.pairwise_cons.mp ordered
    by_cases before : row.1 ≤ id
    · rw [List.filter_cons_of_pos (by simpa using before),
        List.filter_cons_of_neg (by simpa using before), List.cons_append,
        ← ih others]
    · have noneUpTo : ∀ other ∈ row :: rest, ¬ decide (other.1 ≤ id) = true := by
        intro other member
        rw [decide_eq_true_eq, not_le]
        rcases List.mem_cons.mp member with rfl | later
        · exact not_le.mp before
        · exact lt_trans (not_le.mp before) (first other later)
      have allAbove : ∀ other ∈ row :: rest, decide (id < other.1) = true := by
        intro other member
        exact decide_eq_true (not_le.mp fun upTo =>
          noneUpTo other member (decide_eq_true upTo))
      rw [List.filter_eq_nil_iff.mpr noneUpTo, List.filter_eq_self.mpr allAbove,
        List.nil_append]

/-! ### Requests and changes -/

def couchPageSize : Nat := 1000

/-- `_all_docs?limit=1000&skip=…`. -/
def Contents.page (contents : Contents Id Doc) (skip : Nat) : List (Id × Doc) :=
  (contents.rows.drop skip).take couchPageSize

inductive Event (Id Doc : Type) where
  | put (id : Id) (doc : Doc)
  | delete (id : Id)
  | request

structure State (Id Doc : Type) [LinearOrder Id] where
  contents : Contents Id Doc
  total : Nat := 0
  written : List (Id × Doc) := []
  done : Bool := false

/-- One turn of the loop of `dumpDatabase`. -/
def dumpPage (state : State Id Doc) : State Id Doc :=
  let page := state.contents.page state.total
  { state with
    total := state.total + page.length
    written := state.written ++ page
    done := decide (page.length < couchPageSize) }

def step (state : State Id Doc) : Event Id Doc → State Id Doc
  | .put id doc => { state with contents := state.contents.put id doc }
  | .delete id => { state with contents := state.contents.delete id }
  | .request => if state.done then state else dumpPage state

variable {state : State Id Doc}

theorem dumpPage_of_empty (empty : state.contents.page state.total = []) :
    (dumpPage state).done = true ∧ (dumpPage state).written = state.written := by
  simp [dumpPage, empty, couchPageSize]

/-- A dump, from its first request on. -/
def dumpDatabase (contents : Contents Id Doc) (events : List (Event Id Doc)) : State Id Doc :=
  run step { contents := contents } (.request :: events)

/-! ### Documents that stay -/

/-- The document is in the database whenever the dump is not over. -/
def Stays (contents : Contents Id Doc) (events : List (Event Id Doc)) (row : Id × Doc) : Prop :=
  EveryStep step (fun state _ => state.done = false → row ∈ state.contents.rows)
    { contents := contents } (.request :: events)

/-- A finished dump has every document that stayed exactly once. -/
def MissesNothing (contents : Contents Id Doc) (events : List (Event Id Doc)) : Prop :=
  (dumpDatabase contents events).done = true → ∀ row, Stays contents events row →
    (dumpDatabase contents events).written.filter (fun other => other.1 = row.1) = [row]

/-- As many documents lie up to the last written id as were written. -/
def State.Aligned (state : State Id Doc) : Prop :=
  ∀ last ∈ state.written.getLast?, (state.contents.upTo last.1).length = state.total

/-- Every request finds the documents aligned with its offset. -/
def AlignedRequests (contents : Contents Id Doc) (events : List (Event Id Doc)) : Prop :=
  EveryStep step (fun state event => event = .request → state.done = false → state.Aligned)
    { contents := contents } (.request :: events)

def State.remaining (state : State Id Doc) : List (Id × Doc) :=
  state.contents.rows.drop state.total

/-- What holds for a document that stays, along a run of aligned requests. -/
structure Keeps (row : Id × Doc) (state : State Id Doc) : Prop where
  ordered : state.written.Pairwise fun one other => one.1 < other.1
  offset : state.written = [] → state.total = 0
  behind : ∀ last ∈ state.written.getLast?, row.1 ≤ last.1 → row ∈ state.written
  finished : state.done = true → row ∈ state.written

theorem le_last {rows : List (Id × Doc)}
    (ordered : rows.Pairwise fun one other => one.1 < other.1) {last one : Id × Doc}
    (isLast : last ∈ rows.getLast?) (member : one ∈ rows) : one.1 ≤ last.1 := by
  obtain ⟨before, rfl⟩ := List.getLast?_eq_some_iff.mp isLast
  rcases List.mem_append.mp member with earlier | same
  · exact le_of_lt ((List.pairwise_append.mp ordered).2.2 one earlier last
      (List.mem_singleton_self _))
  · rw [List.mem_singleton.mp same]

/-- An aligned request goes on right above the last written id. -/
theorem State.Aligned.remaining_eq (aligned : state.Aligned)
    {last : Id × Doc} (isLast : last ∈ state.written.getLast?) :
    state.remaining = state.contents.above last.1 := by
  unfold remaining
  rw [state.contents.rows_eq last.1, ← aligned last isLast, List.drop_left]

variable {row : Id × Doc}

theorem written_lt_remaining (keeps : Keeps row state)
    (aligned : state.Aligned) {one other : Id × Doc} (written : one ∈ state.written)
    (remains : other ∈ state.remaining) : one.1 < other.1 := by
  obtain ⟨last, isLast⟩ : ∃ last, last ∈ state.written.getLast? :=
    ⟨_, List.getLast?_eq_some_getLast (List.ne_nil_of_mem written)⟩
  rw [aligned.remaining_eq isLast] at remains
  exact lt_of_le_of_lt (le_last keeps.ordered isLast written)
    (of_decide_eq_true (List.mem_filter.mp remains).2)

theorem written_or_remaining (keeps : Keeps row state)
    (aligned : state.Aligned) (here : row ∈ state.contents.rows) :
    row ∈ state.written ∨ row ∈ state.remaining := by
  cases isLast : state.written.getLast? with
  | none =>
    have nothing : state.written = [] := List.getLast?_eq_none_iff.mp isLast
    refine .inr ?_
    rw [State.remaining, keeps.offset nothing, List.drop_zero]
    exact here
  | some last =>
    by_cases before : row.1 ≤ last.1
    · exact .inl (keeps.behind last isLast before)
    · refine .inr ?_
      rw [aligned.remaining_eq isLast]
      exact List.mem_filter.mpr ⟨here, decide_eq_true (not_le.mp before)⟩

theorem remaining_eq_page_append (state : State Id Doc) : state.remaining =
      state.contents.page state.total ++ state.remaining.drop couchPageSize :=
  (List.take_append_drop ..).symm

theorem remaining_ordered (state : State Id Doc) :
    state.remaining.Pairwise fun one other => one.1 < other.1 :=
  state.contents.ordered.sublist (List.drop_sublist ..)

theorem remaining_eq_page (short : (state.contents.page state.total).length < couchPageSize) :
    state.remaining = state.contents.page state.total := by
  unfold Contents.page at short ⊢
  rw [List.length_take] at short
  have all : (state.contents.rows.drop state.total).length ≤ couchPageSize := by omega
  rw [List.take_of_length_le all]
  rfl

theorem keeps_dumpPage (keeps : Keeps row state)
    (aligned : state.Aligned) (here : row ∈ state.contents.rows) :
    Keeps row (dumpPage state) where
  ordered := by
    refine List.pairwise_append.mpr ⟨keeps.ordered, ?_, fun one written other paged => ?_⟩
    · exact (remaining_ordered state).sublist (List.take_sublist ..)
    · exact written_lt_remaining keeps aligned written (List.mem_of_mem_take paged)
  offset := by
    intro nothing
    obtain ⟨noneWritten, noPage⟩ := List.append_eq_nil_iff.mp nothing
    change state.total + (state.contents.page state.total).length = 0
    rw [noPage, keeps.offset noneWritten]
    rfl
  behind := by
    intro last isLast before
    change last ∈ (state.written ++ state.contents.page state.total).getLast? at isLast
    refine List.mem_append.mpr ((written_or_remaining keeps aligned here).imp_right fun remains => ?_)
    rw [remaining_eq_page_append state] at remains
    rcases List.mem_append.mp remains with paged | later
    · exact paged
    -- a row after the page is above the page's last row
    have pageNotEmpty : state.contents.page state.total ≠ [] := by
      intro noPage
      have short : (state.contents.page state.total).length < couchPageSize := by
        rw [noPage]
        exact (show 0 < couchPageSize by decide)
      rw [remaining_eq_page short, noPage] at later
      exact absurd later (by simp)
    rw [List.getLast?_append_of_ne_nil _ pageNotEmpty] at isLast
    have ordered := remaining_ordered state
    rw [remaining_eq_page_append state] at ordered
    have above := (List.pairwise_append.mp ordered).2.2 last (List.mem_of_getLast? isLast) row later
    exact absurd before (not_le.mpr above)
  finished := by
    intro done
    have short : (state.contents.page state.total).length < couchPageSize :=
      of_decide_eq_true done
    refine List.mem_append.mpr ((written_or_remaining keeps aligned here).imp_right fun remains => ?_)
    rw [remaining_eq_page short] at remains
    exact remains

variable {event : Event Id Doc}

theorem keeps_step (keeps : Keeps row state)
    (safe : (event = .request → state.done = false → state.Aligned) ∧
      (state.done = false → row ∈ state.contents.rows)) :
    Keeps row (step state event) := by
  cases event with
  | put id doc => exact ⟨keeps.ordered, keeps.offset, keeps.behind, keeps.finished⟩
  | delete id => exact ⟨keeps.ordered, keeps.offset, keeps.behind, keeps.finished⟩
  | request =>
    rw [step]
    cases done : state.done with
    | true => exact keeps
    | false => exact keeps_dumpPage keeps (safe.1 rfl done) (safe.2 done)

variable {contents : Contents Id Doc}

theorem keeps_dumpDatabase {events : List (Event Id Doc)}
    (aligned : AlignedRequests contents events)
    (stays : Stays contents events row) : Keeps row (dumpDatabase contents events) := by
  have initially : Keeps row { contents := contents } :=
    { ordered := List.Pairwise.nil
      offset := fun _ => rfl
      behind := fun _ isLast => nomatch isLast
      finished := fun done => nomatch done }
  exact invariant_run_of_everyStep (fun _ _ keeps safe => keeps_step keeps safe) initially
    (EveryStep.and aligned stays)

theorem filter_eq_singleton {rows : List (Id × Doc)}
    (ordered : rows.Pairwise fun one other => one.1 < other.1)
    (member : row ∈ rows) : rows.filter (fun other => other.1 = row.1) = [row] := by
  obtain ⟨before, after, rfl⟩ := List.append_of_mem member
  obtain ⟨-, fromRow, beforeLess⟩ := List.pairwise_append.mp ordered
  have noneBefore : before.filter (fun other => other.1 = row.1) = [] :=
    List.filter_eq_nil_iff.mpr fun other inBefore => by
      simpa using (beforeLess other inBefore row List.mem_cons_self).ne
  have noneAfter : after.filter (fun other => other.1 = row.1) = [] :=
    List.filter_eq_nil_iff.mpr fun other inAfter => by
      simpa using ((List.pairwise_cons.mp fromRow).1 other inAfter).ne'
  simp [noneBefore, noneAfter]

/-- Two documents, and a third that is put above them after the only request. -/
def fewContents : Contents Nat String where
  rows := [(1, "one"), (2, "two")]
  ordered := by decide

/-- The ids a, aa, aaa and so on. -/
def letters (count : Nat) : String := String.ofList (List.replicate count 'a')

theorem letters_lt {few many : Nat} (less : few < many) : letters few < letters many := by
  rw [String.lt_iff_toList_lt, letters, letters, String.toList_ofList, String.toList_ofList]
  induction few generalizing many with
  | zero =>
    cases many with
    | zero => exact absurd less (Nat.lt_irrefl 0)
    | succ many => exact List.nil_lt_cons ..
  | succ few ih =>
    cases many with
    | zero => exact absurd less (Nat.not_lt_zero _)
    | succ many =>
      exact List.cons_lt_cons_iff.mpr
        (.inr ⟨rfl, ih (Nat.lt_of_succ_lt_succ less)⟩)

def lettered (number : Nat) : String × String := (letters (number + 1), "")

def letteredContents (count : Nat) : Contents String String where
  rows := (List.range count).map lettered
  ordered := by
    rw [List.pairwise_map]
    exact List.pairwise_lt_range.imp fun less => letters_lt (Nat.succ_lt_succ less)

theorem lettered_injective {one other : Nat} (same : (lettered one).1 = (lettered other).1) :
    one = other := by
  rcases Nat.lt_trichotomy one other with less | equal | more
  · exact absurd same (ne_of_lt (letters_lt (Nat.succ_lt_succ less)))
  · exact equal
  · exact absurd same (ne_of_gt (letters_lt (Nat.succ_lt_succ more)))

/-- The first document is deleted after the first page. -/
def deletion : List (Event String String) := [.delete (letters 1), .request]

def afterFirstPage (size : Nat) : State String String where
  contents := letteredContents (size + 1)
  total := size
  written := (List.range size).map lettered

variable {size : Nat}

theorem step_first (isSize : couchPageSize = size) :
    step { contents := letteredContents (size + 1) } .request = afterFirstPage size := by
  have page : (letteredContents (size + 1)).page 0 = (List.range size).map lettered := by
    rw [Contents.page, List.drop_zero, letteredContents, ← List.map_take, List.take_range, isSize,
      Nat.min_eq_left (Nat.le_succ size)]
  have count : ((List.range size).map lettered).length = size := by simp
  have notDone : decide (size < couchPageSize) = false := by simp [isSize]
  change dumpPage _ = _
  unfold dumpPage afterFirstPage
  simp only [page, count, notDone, List.nil_append, Nat.zero_add]

theorem dumpDatabase_deletion (isSize : couchPageSize = size) :
    (dumpDatabase (letteredContents (size + 1)) deletion).done = true ∧
      (dumpDatabase (letteredContents (size + 1)) deletion).written =
        (List.range size).map lettered := by
  have few : ((afterFirstPage size).contents.delete (letters 1)).rows.length ≤ size := by
    change (((List.range (size + 1)).map lettered).filter
      fun row => row.1 ≠ letters 1).length ≤ size
    rw [List.range_succ_eq_map, List.map_cons, List.filter_cons_of_neg (by simp [lettered])]
    exact (List.length_filter_le ..).trans (by simp)
  have page : ((afterFirstPage size).contents.delete (letters 1)).page size = [] := by
    rw [Contents.page, List.drop_eq_nil_of_le few, List.take_nil]
  unfold dumpDatabase deletion
  rw [run_cons, step_first isSize, run_cons, run_cons, run_nil]
  exact dumpPage_of_empty page

/-- The document that moves to the place before the offset. -/
theorem stays_deletion (isSize : couchPageSize = size) :
    Stays (letteredContents (size + 1)) deletion (lettered size) := by
  have here : lettered size ∈ (letteredContents (size + 1)).rows :=
    List.mem_map_of_mem (List.mem_range.mpr (Nat.lt_succ_self size))
  have notDeleted : lettered size ∈ ((letteredContents (size + 1)).delete (letters 1)).rows := by
    refine List.mem_filter.mpr ⟨here, decide_eq_true fun same => ?_⟩
    have first : size = 0 := @lettered_injective size 0 same
    exact absurd (isSize.trans first) (by decide)
  unfold Stays deletion
  rw [EveryStep, step_first isSize]
  exact ⟨fun _ => here, fun _ => here, fun _ => notDeleted, trivial⟩

theorem deletion_loses_last (isSize : couchPageSize = size) :
    ¬ MissesNothing (letteredContents (size + 1)) deletion := by
  intro missesNothing
  obtain ⟨done, written⟩ := dumpDatabase_deletion isSize
  have once := missesNothing done _ (stays_deletion isSize)
  have member : lettered size ∈ (List.range size).map lettered := by
    rw [← written]
    exact List.mem_of_mem_filter (once ▸ List.mem_singleton_self (lettered size))
  obtain ⟨number, inRange, same⟩ := List.mem_map.mp member
  have number_eq : number = size := lettered_injective (congrArg Prod.fst same)
  exact absurd (List.mem_range.mp inRange) (by omega)

end DbBackup.Engine.Couch.Paging
