import DbBackup.Engine.Redis.Dump

/-!
Owns what the dump writes for a key that nothing happens to while its commands run: `keyLines`, and
the pages a stream is read by.

Contract: `dumpKey_static`. The fuel of the paging loop is enough for every stream that stays, and
the number of its commands is known (`xRangeAll_static`).
-/

namespace DbBackup.Engine.Redis.Dump

variable {Score : Type}

/-! ### Pages of a stream -/

theorem lt_xRangeAll (view : View Score) (done n fuel : Nat) (some : 0 < fuel) :
    n < (xRangeAll view done n fuel).2 := by
  induction fuel generalizing done n with
  | zero => exact absurd some (Nat.lt_irrefl 0)
  | succ fuel ih =>
    unfold xRangeAll
    dsimp only
    split
    · exact Nat.lt_succ_self n
    · split
      · exact Nat.lt_succ_self n
      · cases fuel with
        | zero => exact Nat.lt_succ_self n
        | succ fuel =>
          exact Nat.lt_trans (Nat.lt_succ_self n) (ih _ _ (Nat.succ_pos _))

/-- The pages depend on what their own commands find. -/
theorem xRangeAll_congr {view other : View Score} (done n fuel : Nat)
    (same : ∀ j, n ≤ j → j < (xRangeAll view done n fuel).2 → view j = other j) :
    xRangeAll view done n fuel = xRangeAll other done n fuel := by
  induction fuel generalizing done n with
  | zero => rfl
  | succ fuel ih =>
    have here : view n = other n :=
      same n (Nat.le_refl n) (lt_xRangeAll view done n _ (Nat.succ_pos fuel))
    unfold xRangeAll at same ⊢
    dsimp only at same ⊢
    rw [← here]
    split
    · rfl
    · split
      · rfl
      · rename_i some full
        rw [if_neg some, if_neg full] at same
        rw [ih _ _ fun j atLeast below =>
          same j (Nat.le_of_succ_le atLeast) below]

variable (entries : List (String × List (String × String)))

/-- A stream that stays is read whole, with one page more than the full ones. -/
theorem xRangeAll_constant (groups : List (String × String)) (done n fuel : Nat)
    (enough : (entries.length - done) / xPage < fuel) :
    xRangeAll (fun _ => some (Value.stream entries groups : Value Score)) done n fuel =
      (entries.drop done, n + (entries.length - done) / xPage + 1) := by
  have pagePos : 0 < xPage := by decide
  induction fuel generalizing done n with
  | zero => exact absurd enough (Nat.not_lt_zero _)
  | succ fuel ih =>
    have left : (entries.drop done).length = entries.length - done := List.length_drop
    rw [xRangeAll]
    change (if (entries.drop done).take xPage = [] then ([], n + 1)
      else if ((entries.drop done).take xPage).length < xPage then
        ((entries.drop done).take xPage, n + 1)
      else ((entries.drop done).take xPage ++ (xRangeAll _ (done + xPage) (n + 1) fuel).1,
        (xRangeAll _ (done + xPage) (n + 1) fuel).2)) = _
    by_cases nothing : (entries.drop done).take xPage = []
    · have noMore : entries.length - done = 0 := by
        have length := congrArg List.length nothing
        rw [List.length_take, left, List.length_nil] at length
        omega
      rw [if_pos nothing, noMore, Nat.zero_div, List.length_eq_zero_iff.mp (left.trans noMore)]
    · rw [if_neg nothing]
      by_cases short : ((entries.drop done).take xPage).length < xPage
      · rw [if_pos short]
        rw [List.length_take, left] at short
        have fewer : entries.length - done < xPage := by omega
        rw [Nat.div_eq_of_lt fewer, List.take_of_length_le (by omega)]
      · rw [if_neg short]
        rw [List.length_take, left] at short
        have atLeast : xPage ≤ entries.length - done := by omega
        have pages : (entries.length - done) / xPage =
            (entries.length - (done + xPage)) / xPage + 1 := by
          rw [← Nat.sub_sub, ← Nat.div_eq_sub_div pagePos atLeast]
        rw [pages] at enough ⊢
        rw [ih _ _ (Nat.lt_of_succ_lt_succ enough), ← List.drop_drop,
          List.take_append_drop]
        exact Prod.ext rfl (by dsimp only; omega)

theorem xFuel_enough :
    (entries.length - 0) / xPage < entries.length + 1 :=
  Nat.lt_succ_of_le (Nat.div_le_self _ _)

/-- The command that asks for a stream's groups. -/
def xInfoCommand (entries : List (String × List (String × String))) : Nat :=
  3 + entries.length / xPage

theorem xRangeAll_static (groups : List (String × String)) :
    xRangeAll (fun _ => some (Value.stream entries groups : Value Score)) 0 2
      (entries.length + 1) = (entries, xInfoCommand entries) := by
  rw [xRangeAll_constant entries groups 0 2 _ (xFuel_enough entries), List.drop_zero,
    Nat.sub_zero, xInfoCommand, Nat.add_right_comm]

/-! ### A key that stays -/

/-- What Redis keeps: no empty collection, and no module type without a name. -/
def Value.Kept : Value Score → Prop
  | .list items => items ≠ []
  | .set members => members ≠ []
  | .hash fields => fields ≠ []
  | .zset members => members ≠ []
  | .other type _ => type ≠ ""
  | _ => True

def keyLines (formats : Formats Score) (order : Order) (key : String) (ttlSec : Int) :
    Value Score → List Line
  | .string text => writeWithTTL key text ttlSec
  | .list items => writeRestoreList key items ttlSec
  | .set members => writeRestoreSet key (order.members members) ttlSec
  | .hash fields => writeRestoreHash key (order.fields fields) ttlSec
  | .zset members => writeRestoreZSet formats key members ttlSec
  | .stream entries groups => writeRestoreStream key entries groups ttlSec
  | .other _ payload =>
    ⟨"RESTOREBLOB", [.quoted key, .word (formats.encodeBlob payload)]⟩ :: writeKeyTTL key ttlSec

theorem dumpKey_static (formats : Formats Score) (order : Order) (ttl : Int) (key : String)
    {value : Value Score} (kept : value.Kept) :
    dumpKey formats order (fun _ => some value) ttl key =
      .ok (keyLines formats order key (if ttl < 0 then 0 else ttl) value) := by
  unfold dumpKey
  simp only [Option.isNone_some, Bool.false_eq_true, false_or]
  cases value with
  | string text => rfl
  | list items => rfl
  | set members => rfl
  | hash fields => rfl
  | zset members => rfl
  | stream entries groups =>
    simp only [typeReply]
    rw [xFuel, xEntries, xRangeAll_static]
    rfl
  | other type payload =>
    have named : ¬ (TypeReply.other type).text = "" := kept
    simp only [typeReply, named, if_false]
    rfl

theorem verb_of_mem_writeKeyTTL {key : String} {ttlSec : Int} {line : Line}
    (mem : line ∈ writeKeyTTL key ttlSec) : line.verb = "EXPIRE" := by
  unfold writeKeyTTL at mem
  split at mem
  · rw [List.mem_singleton.mp mem]
  · cases mem

theorem exists_mem_writeRestore {verb key : String} {parts : List Token} {ttlSec : Int}
    (notExpire : verb ≠ "EXPIRE") (some : parts ≠ []) :
    ∃ line ∈ writeRestore verb key parts ttlSec, line.verb ≠ "EXPIRE" := by
  unfold writeRestore
  rw [if_neg some]
  exact ⟨_, List.mem_cons_self, notExpire⟩

theorem flatMap_ne_nil {α β : Type*} {items : List α} {f : α → List β} (some : items ≠ [])
    (each : ∀ item, f item ≠ []) : items.flatMap f ≠ [] := by
  intro none
  obtain ⟨item, mem⟩ := List.exists_mem_of_ne_nil items some
  exact each item (List.flatMap_eq_nil_iff.mp none item mem)

/-- A key gets a line that gives it a value, unless it is a stream with nothing in it. -/
theorem exists_valueLine (formats : Formats Score) (order : Order) (key : String) (ttlSec : Int)
    {value : Value Score} (kept : value.Kept) (notEmpty : value ≠ .stream [] []) :
    ∃ line ∈ keyLines formats order key ttlSec value, line.verb ≠ "EXPIRE" := by
  have isSet : "SET" ≠ "EXPIRE" := by decide
  cases value with
  | string text =>
    simp only [keyLines, writeWithTTL]
    split
    · exact ⟨_, List.mem_singleton_self _, isSet⟩
    · exact ⟨_, List.mem_singleton_self _, isSet⟩
  | list items =>
    exact exists_mem_writeRestore (by decide) (mt List.map_eq_nil_iff.mp kept)
  | set members =>
    refine exists_mem_writeRestore (by decide) (mt List.map_eq_nil_iff.mp fun none => kept ?_)
    exact List.nil_perm.mp (none ▸ order.members_perm members)
  | hash fields =>
    refine exists_mem_writeRestore (by decide) (flatMap_ne_nil (fun none => kept ?_) nofun)
    exact List.nil_perm.mp (none ▸ order.fields_perm fields)
  | zset members => exact exists_mem_writeRestore (by decide) (flatMap_ne_nil kept nofun)
  | stream entries groups =>
    have isXadd : "XADD" ≠ "EXPIRE" := by decide
    have isXgroup : "XGROUP" ≠ "EXPIRE" := by decide
    cases entries with
    | cons entry entries =>
      exact ⟨xaddLine key entry, List.mem_append_left _ (List.mem_append_left _
        List.mem_cons_self), isXadd⟩
    | nil =>
      cases groups with
      | nil => exact absurd rfl notEmpty
      | cons group groups =>
        exact ⟨xgroupLine key group, List.mem_append_left _ (List.mem_append_right _
          List.mem_cons_self), isXgroup⟩
  | other type payload =>
    have isBlob : "RESTOREBLOB" ≠ "EXPIRE" := by decide
    exact ⟨_, List.mem_cons_self, isBlob⟩

end DbBackup.Engine.Redis.Dump
