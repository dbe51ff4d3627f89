import DbBackup.Engine.Mssql.IdentityInsert
import DbBackup.Lib.Delimited

/-!
Owns the batches `restoreStream` of `internal/database/engine/mssql/ops.go` cuts a
dump into, against the pieces the dumper wrote `GO` lines between.

Contract: `restoreStream` hands the batches of `yields` to its callback. On a dump
they are the pieces, trimmed and without the blank ones, exactly when no piece
holds a `GO` line of its own (`cutAtGO_iff`): each such line is two characters
that stand in no batch.
-/

set_option linter.all false

namespace DbBackup.Engine.Mssql

open Lib.Delimited Lib.GoString Lib.LineScan

/-! ### What `restoreStream` yields -/

/-- `flush`: a blank batch is not yielded. -/
def batchOf (pending : List String) (sourceDB : String) : List (String × String) :=
  let batch := trimSpace (joinLines pending)
  if batch = "" then [] else [(batch, sourceDB)]

/-- The first marker line names the source database. -/
def sourceAfter (sourceDB line : String) : String :=
  if sourceDB = "" then (markerSourceDB line).getD "" else sourceDB

def yieldsFrom : List String → String → List String → List (String × String)
  | pending, sourceDB, [] => batchOf pending sourceDB
  | pending, sourceDB, line :: rest =>
    if isGOSeparator line then
      batchOf pending (sourceAfter sourceDB line) ++
        yieldsFrom [] (sourceAfter sourceDB line) rest
    else yieldsFrom (pending ++ [line]) (sourceAfter sourceDB line) rest

/-- The calls of `yield`: a batch and the source database known by then. -/
def yields (text : String) : List (String × String) := yieldsFrom [] "" (textLines text)

variable {State : Type}

/-- The callback of `Restore` on one yield. -/
def execYield (server : Server State) (firstDB : String) (database : State)
    (batch : String × String) : Except String State :=
  execBatch server firstDB batch.2 batch.1 database

theorem flush_eq (server : Server State) (firstDB : String) (state : StreamState State) :
    flush server firstDB state = (do
      let database ←
        (batchOf state.pending state.sourceDB).foldlM (execYield server firstDB) state.database
      pure { state with pending := [], database := database }) := by
  unfold flush batchOf
  by_cases blank : trimSpace (joinLines state.pending) = ""
  · simp only [blank, ↓reduceIte, List.foldlM_nil]
    rfl
  · simp only [blank, ↓reduceIte, List.foldlM_cons, List.foldlM_nil, execYield, bind_pure]

theorem restoreStream_eq (server : Server State) (firstDB text : String) (database : State) :
    restoreStream server firstDB text database =
      (yields text).foldlM (execYield server firstDB) database := by
  have lines : ∀ (lines : List String) (state : StreamState State),
      (do
        let state ← lines.foldlM (streamLine server firstDB) state
        let state ← flush server firstDB state
        pure state.database) =
      (yieldsFrom state.pending state.sourceDB lines).foldlM (execYield server firstDB)
        state.database := by
    intro lines
    induction lines with
    | nil =>
      intro state
      rw [List.foldlM_nil, pure_bind, flush_eq, yieldsFrom]
      simp only [bind_assoc, pure_bind, bind_pure]
    | cons line rest ih =>
      intro state
      have seen : streamLine server firstDB state line =
          (if isGOSeparator line then
            flush server firstDB { state with sourceDB := sourceAfter state.sourceDB line }
          else .ok { state with
            sourceDB := sourceAfter state.sourceDB line
            pending := state.pending ++ [line] }) := by
        unfold streamLine sourceAfter
        by_cases unknown : state.sourceDB = "" <;> simp [unknown]
      rw [List.foldlM_cons, yieldsFrom, seen]
      by_cases go : isGOSeparator line = true
      · rw [if_pos go, if_pos go, flush_eq, List.foldlM_append]
        simp only [bind_assoc, pure_bind]
        exact congrArg _ (funext fun database => ih
          { state with sourceDB := sourceAfter state.sourceDB line, pending := [], database := database })
      · rw [if_neg go, if_neg go]
        exact ih
          { state with sourceDB := sourceAfter state.sourceDB line, pending := state.pending ++ [line] }
  exact lines (textLines text) { database := database }

/-- The texts of the batches: the lines between `GO` lines, trimmed. -/
def goBatches (lines : List String) : List String :=
  ((lines.splitOnP isGOSeparator).map fun group => trimSpace (joinLines group)).filter (· ≠ "")

theorem goBatches_cut (lines others : List String) {line : String}
    (go : isGOSeparator line = true) :
    goBatches (lines ++ line :: others) = goBatches lines ++ goBatches others := by
  unfold goBatches
  rw [List.splitOnP_append_cons _ _ go, List.map_append, List.filter_append]

variable {lines : List String}

theorem goBatches_whole (none : ∀ line ∈ lines, isGOSeparator line = false) :
    goBatches lines = [trimSpace (joinLines lines)].filter (· ≠ "") := by
  unfold goBatches
  rw [List.splitOnP_eq_singleton none]
  rfl

theorem yields_fst (text : String) : (yields text).map Prod.fst = goBatches (textLines text) := by
  have flushed : ∀ pending sourceDB, (batchOf pending sourceDB).map Prod.fst =
      [trimSpace (joinLines pending)].filter (· ≠ "") := by
    intro pending sourceDB
    unfold batchOf
    by_cases blank : trimSpace (joinLines pending) = "" <;> simp [blank]
  have lines : ∀ (lines pending : List String) (sourceDB : String),
      (∀ line ∈ pending, isGOSeparator line = false) →
      (yieldsFrom pending sourceDB lines).map Prod.fst = goBatches (pending ++ lines) := by
    intro lines
    induction lines with
    | nil =>
      intro pending sourceDB none
      rw [yieldsFrom, flushed, List.append_nil, goBatches_whole none]
    | cons line rest ih =>
      intro pending sourceDB none
      rw [yieldsFrom]
      by_cases go : isGOSeparator line = true
      · rw [if_pos go, List.map_append, flushed, ih [] _ (by simp),
          goBatches_cut pending rest go, goBatches_whole none, List.nil_append]
      · have noneYet : ∀ other ∈ pending ++ [line], isGOSeparator other = false := by
          intro other member
          rcases List.mem_append.mp member with before | isLine
          · exact none other before
          · rw [List.mem_singleton.mp isLine]
            exact Bool.eq_false_iff.mpr go
        rw [if_neg go, ih _ _ noneYet, List.append_assoc]
        rfl
  exact lines (textLines text) [] "" (by simp)

/-! ### Weights -/

def totalWeight (texts : List String) : Nat := (texts.map weight).sum

theorem totalWeight_filter (texts : List String) :
    totalWeight (texts.filter (· ≠ "")) = totalWeight texts := by
  induction texts with
  | nil => rfl
  | cons text rest ih =>
    unfold totalWeight at *
    by_cases blank : text = ""
    · subst blank
      rw [List.filter_cons_of_neg (by simp), ih, List.map_cons, List.sum_cons]
      exact (Nat.zero_add _).symm
    · rw [List.filter_cons_of_pos (by simpa using blank), List.map_cons, List.map_cons,
        List.sum_cons, List.sum_cons, ih]

theorem totalWeight_flatMap {α : Type} (items : List α) (texts : α → List String) :
    totalWeight (items.flatMap texts) = (items.map fun item => totalWeight (texts item)).sum := by
  induction items with
  | nil => rfl
  | cons item rest ih =>
    rw [List.flatMap_cons, List.map_cons, List.sum_cons, ← ih]
    unfold totalWeight
    rw [List.map_append, List.sum_append]

theorem weight_joinLines (lines : List String) : weight (joinLines lines) = totalWeight lines := by
  induction lines with
  | nil => rfl
  | cons line rest ih =>
    rw [weight_joinLines_cons, ih]
    rfl

/-- The lines that are no `GO` line make up the batches. -/
theorem totalWeight_goBatches (lines : List String) :
    totalWeight (goBatches lines) = totalWeight (lines.filter fun line => !isGOSeparator line) := by
  have groups : ((lines.splitOnP isGOSeparator).map totalWeight).sum =
      totalWeight (lines.filter fun line => !isGOSeparator line) := by
    induction lines with
    | nil => rfl
    | cons line rest ih =>
      cases go : isGOSeparator line with
      | true =>
        rw [splitOnP_cons_sep go, List.filter_cons_of_neg (by simp [go]), ← ih]
        exact Nat.zero_add _
      | false =>
        obtain ⟨head, tail, split, extended⟩ := splitOnP_cons_other go rest
        rw [split] at ih
        rw [extended, List.filter_cons_of_pos (by simp [go])]
        unfold totalWeight at *
        simp only [List.map_cons, List.sum_cons] at *
        omega
  have trimmed : ∀ group : List String, weight (trimSpace (joinLines group)) = totalWeight group :=
    fun group => (weight_trimSpace _).trans (weight_joinLines group)
  have weights : ((lines.splitOnP isGOSeparator).map
      fun group => trimSpace (joinLines group)).map weight =
        (lines.splitOnP isGOSeparator).map totalWeight := by
    rw [List.map_map]
    refine List.map_congr_left fun group _ => ?_
    rw [Function.comp_apply, trimmed]
  unfold goBatches
  rw [totalWeight_filter, totalWeight, weights, groups]

theorem weight_go {line : String} (go : isGOSeparator line = true) : 0 < weight line := by
  rw [Nat.pos_iff_ne_zero, ne_eq, weight_eq_zero_iff]
  intro blank
  unfold isGOSeparator at go
  rw [blank] at go
  exact absurd go (by decide)

theorem totalWeight_goBatches_le (lines : List String) :
    totalWeight (goBatches lines) ≤ totalWeight lines := by
  have fewer : ((lines.filter fun line => !isGOSeparator line).map weight).Sublist
      (lines.map weight) := List.filter_sublist.map weight
  rw [totalWeight_goBatches]
  exact fewer.sum_le_sum fun _ _ => Nat.zero_le _

theorem totalWeight_goBatches_lt (cut : ∃ line ∈ lines, isGOSeparator line = true) :
    totalWeight (goBatches lines) < totalWeight lines := by
  obtain ⟨line, member, go⟩ := cut
  obtain ⟨before, after, rfl⟩ := List.append_of_mem member
  have first := totalWeight_goBatches_le before
  have second := totalWeight_goBatches_le after
  have heavy := weight_go go
  rw [goBatches_cut before after go]
  unfold totalWeight at *
  simp only [List.map_append, List.sum_append, List.map_cons, List.sum_cons]
  omega

/-! ### Texts of whole lines -/

def LineClosed (text : String) : Prop := joinLines (textLines text) = text

theorem lineClosed_joinLines (oneLine : ∀ line ∈ lines, OneLine line) :
    LineClosed (joinLines lines) := by
  unfold LineClosed
  rw [textLines_joinLines oneLine]

theorem lineClosed_newline (text : String) : LineClosed (text ++ "\n") := by
  rw [← joinLines_splitNewlines]
  exact lineClosed_joinLines fun line member => oneLine_of_mem_splitNewlines member

theorem lineClosed_append (start : String) {ending : String} (ends : hasSuffix ending "\n" = true) :
    LineClosed (start ++ ending) := by
  obtain ⟨before, rfl⟩ := (hasSuffix_iff _ _).mp ends
  rw [← String.append_assoc]
  exact lineClosed_newline _

theorem textLines_append {first second : String} (firstClosed : LineClosed first)
    (secondClosed : LineClosed second) :
    textLines (first ++ second) = textLines first ++ textLines second := by
  have oneLine : ∀ line ∈ textLines first ++ textLines second, OneLine line := by
    intro line member
    rcases List.mem_append.mp member with inFirst | inSecond
    · exact oneLine_of_mem_textLines inFirst
    · exact oneLine_of_mem_textLines inSecond
  rw [← textLines_joinLines oneLine, joinLines_append, firstClosed, secondClosed]

theorem LineClosed.append {first second : String} (firstClosed : LineClosed first)
    (secondClosed : LineClosed second) : LineClosed (first ++ second) := by
  unfold LineClosed
  rw [textLines_append firstClosed secondClosed, joinLines_append, firstClosed, secondClosed]

/-- The lines of a closed text, with an empty one after the last line break. -/
theorem splitNewlines_of_lineClosed {text : String} (closed : LineClosed text) :
    splitNewlines text = textLines text ++ [""] := by
  have all := splitNewlines_joinLines_append
    (fun line (member : line ∈ textLines text) => oneLine_of_mem_textLines member) ""
  rw [closed, String.append_empty] at all
  exact all

theorem goFree_iff {text : String} (closed : LineClosed text) :
    GoFree text ↔ ∀ line ∈ textLines text, isGOSeparator line = false := by
  unfold GoFree EveryLine
  rw [splitNewlines_of_lineClosed closed]
  constructor
  · exact fun free line member => free line (List.mem_append_left _ member)
  · intro free line member
    rcases List.mem_append.mp member with inText | isLast
    · exact free line inText
    · rw [List.mem_singleton.mp isLast]
      decide

theorem goFree_append_iff {first second : String} (closed : LineClosed first) :
    GoFree (first ++ second) ↔ GoFree first ∧ GoFree second := by
  have lines : splitNewlines (first ++ second) = textLines first ++ splitNewlines second := by
    conv_lhs => rw [← closed]
    exact splitNewlines_joinLines_append (fun line member => oneLine_of_mem_textLines member) second
  rw [goFree_iff closed]
  unfold GoFree EveryLine
  rw [lines]
  simp only [List.mem_append, or_imp, forall_and]

/-! ### Pieces -/

/-- The pieces so far, and the one being written. -/
structure Cut where
  done : List (List Write) := []
  cur : List Write := []

def cutWrite (cut : Cut) : Write → Cut
  | .go => { done := cut.done ++ [cut.cur], cur := [] }
  | write => { cut with cur := cut.cur ++ [write] }

/-- What the dumper wrote between its `GO` lines. -/
def pieces (writes : List Write) : List (List Write) :=
  let cut := writes.foldl cutWrite {}
  cut.done ++ [cut.cur]

/-- The batches of a dump are its pieces, trimmed and without the blank ones. -/
def CutAtGO (writes : List Write) : Prop :=
  (yields (output writes)).map Prod.fst =
    ((pieces writes).map fun piece => trimSpace (output piece)).filter (· ≠ "")

theorem output_append (first second : List Write) :
    output (first ++ second) = output first ++ output second := by
  unfold output
  rw [List.map_append, String.join_append]

theorem output_cons (write : Write) (rest : List Write) :
    output (write :: rest) = write.output ++ output rest := by
  unfold output
  rw [List.map_cons, String.join_cons]

/-- The pieces joined with `GO` lines are the dump. -/
def joined : List (List Write) → List Write → String
  | [], cur => output cur
  | piece :: rest, cur => output piece ++ "GO\n" ++ joined rest cur

theorem output_pieces (writes : List Write) :
    output writes = joined (writes.foldl cutWrite {}).done (writes.foldl cutWrite {}).cur := by
  have grown : ∀ (done : List (List Write)) (piece cur : List Write),
      joined (done ++ [piece]) cur = joined done (piece ++ .go :: cur) := by
    intro done piece cur
    induction done with
    | nil =>
      rw [List.nil_append, joined, joined, joined, output_append, output_cons, String.append_assoc]
      rfl
    | cons first rest ih => rw [List.cons_append, joined, joined, ih]
  have run : ∀ (writes : List Write) (cut : Cut),
      joined (writes.foldl cutWrite cut).done (writes.foldl cutWrite cut).cur =
        joined cut.done (cut.cur ++ writes) := by
    intro writes
    induction writes with
    | nil => intro cut; rw [List.append_nil]; rfl
    | cons write rest ih =>
      intro cut
      rw [List.foldl_cons, ih]
      cases write with
      | go => rw [cutWrite, grown, List.nil_append]
      | _ => rw [List.append_cons]; rfl
  rw [run writes {}]
  rfl

theorem lineClosed_go : LineClosed "GO\n" := lineClosed_newline "GO"

theorem goBatches_joined {done : List (List Write)} {cur : List Write}
    (closed : ∀ piece ∈ done ++ [cur], LineClosed (output piece)) :
    LineClosed (joined done cur) ∧
      goBatches (textLines (joined done cur)) =
        (done ++ [cur]).flatMap fun piece => goBatches (textLines (output piece)) := by
  induction done with
  | nil =>
    rw [List.nil_append, List.flatMap_singleton, joined]
    exact ⟨closed cur (List.mem_singleton_self _), rfl⟩
  | cons piece rest ih =>
    have pieceClosed := closed piece List.mem_cons_self
    obtain ⟨restClosed, restBatches⟩ :=
      ih (List.forall_mem_cons.mp closed).2
    have headClosed := pieceClosed.append lineClosed_go
    have goLine : textLines "GO\n" = ["GO"] := by decide
    rw [joined, textLines_append headClosed restClosed, textLines_append pieceClosed lineClosed_go,
      goLine, List.append_assoc, List.singleton_append, goBatches_cut _ _ (by decide), restBatches]
    exact ⟨headClosed.append restClosed, rfl⟩

theorem yields_pieces {writes : List Write}
    (closed : ∀ piece ∈ pieces writes, LineClosed (output piece)) :
    (yields (output writes)).map Prod.fst =
      (pieces writes).flatMap fun piece => goBatches (textLines (output piece)) := by
  rw [yields_fst, output_pieces]
  exact (goBatches_joined closed).2

theorem cutAtGO_iff {writes : List Write}
    (closed : ∀ piece ∈ pieces writes, LineClosed (output piece)) :
    CutAtGO writes ↔ ∀ piece ∈ pieces writes, GoFree (output piece) := by
  have wanted : ((pieces writes).map fun piece => trimSpace (output piece)).filter (· ≠ "") =
      (pieces writes).flatMap fun piece => [trimSpace (output piece)].filter (· ≠ "") := by
    rw [List.map_eq_flatMap, List.filter_flatMap]
  unfold CutAtGO
  rw [yields_pieces closed, wanted]
  constructor
  · intro same piece member
    rw [goFree_iff (closed piece member)]
    by_contra cut
    have weights := congrArg totalWeight same
    have heavy : ∀ other ∈ pieces writes,
        totalWeight ([trimSpace (output other)].filter (· ≠ "")) =
          totalWeight (textLines (output other)) := by
      intro other inPieces
      rw [totalWeight_filter, ← weight_joinLines (textLines _), closed other inPieces]
      exact (Nat.add_zero _).trans (weight_trimSpace _)
    rw [totalWeight_flatMap, totalWeight_flatMap] at weights
    refine absurd weights (Nat.ne_of_lt (List.sum_lt_sum _ _ ?_ ⟨piece, member, ?_⟩))
    · intro other inPieces
      exact (totalWeight_goBatches_le _).trans_eq (heavy other inPieces).symm
    · refine (totalWeight_goBatches_lt ?_).trans_eq (heavy piece member).symm
      push Not at cut
      obtain ⟨line, inLines, go⟩ := cut
      exact ⟨line, inLines, by simpa using go⟩
  · intro free
    refine List.flatMap_congr fun piece member => ?_
    rw [goBatches_whole ((goFree_iff (closed piece member)).mp (free piece member)),
      closed piece member]

end DbBackup.Engine.Mssql
