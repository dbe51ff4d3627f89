import DbBackup.Engine.Redis.KeyLines

/-!
Owns the dump of a Redis database while keys expire or are deleted.

Time is counted by the commands of the dump: the `j`-th command on the `i`-th key that `SCAN`
returned. A key that has vanished stays away. Contract: `unbroken_iff`. The dump succeeds, with
every key that stays in its output, exactly when each returned key is still there at `TYPE` and at
the read that has no reply for a missing key: `GET`, `DUMP` or `XINFO GROUPS`. A key that vanishes
before `TYPE` is expected by the code, which looks for the reply "" where the server says "none".
-/

set_option linter.all false

namespace DbBackup.Engine.Redis.Dump

variable {Score : Type}

/-! ### A key while it lasts -/

/-- The view of a key that holds the value until a command finds it gone. -/
structure Lasts (view : View Score) (value : Value Score) : Prop where
  same : ∀ n, view n = some value ∨ view n = none
  stays : ∀ m n, m ≤ n → view m = none → view n = none

theorem Lasts.before {view : View Score} {value : Value Score} (lasts : Lasts view value)
    {m n : Nat} (earlier : m ≤ n) (there : view n ≠ none) : view m = some value := by
  rcases lasts.same m with same | gone
  · exact same
  · exact absurd (lasts.stays m n earlier gone) there

/-- The command that fails when it finds the key gone, after `TYPE`. -/
def lastNeeded : Value Score → Nat
  | .string _ => 2
  | .stream entries _ => xInfoCommand entries
  | .other _ _ => 2
  | _ => 1

/-- A stream's commands succeed exactly when it is there for the last one. -/
theorem stream_isOk_iff {view : View Score} {entries : List (String × List (String × String))}
    {groups : List (String × String)} (lasts : Lasts view (.stream entries groups)) :
    (∃ found, xInfoGroups (view (xRangeAll view 0 2 (xFuel view 2)).2) = .ok found) ↔
      view (xInfoCommand entries) ≠ none := by
  constructor
  · rintro ⟨found, ok⟩ gone
    have there : view (xRangeAll view 0 2 (xFuel view 2)).2 ≠ none := by
      intro missing
      rw [missing] at ok
      cases ok
    have later := lt_xRangeAll view 0 2 (xFuel view 2) (Nat.succ_pos _)
    have first : view 2 = some (.stream entries groups) :=
      lasts.before (Nat.le_of_lt later) there
    have fuel : xFuel view 2 = entries.length + 1 := by rw [xFuel, first, xEntries]
    have static := xRangeAll_congr 0 2 (xFuel view 2) fun j _ below =>
      lasts.before (Nat.le_of_lt below) there
    rw [fuel, xRangeAll_static entries groups] at static
    rw [fuel, static] at there
    exact there gone
  · intro there
    have fuel : xFuel view 2 = entries.length + 1 := by
      rw [xFuel, lasts.before (Nat.le_trans (by decide) (Nat.le_add_right 3 _)) there, xEntries]
    have static := @xRangeAll_congr _ (fun _ => some (.stream entries groups)) view 0 2
      (entries.length + 1) fun j _ below => by
        rw [xRangeAll_static] at below
        exact (lasts.before (Nat.le_of_lt below) there).symm
    rw [xRangeAll_static] at static
    rw [fuel, ← static, lasts.before (Nat.le_refl _) there]
    exact ⟨groups, rfl⟩

/-- A key is dumped without an error exactly when it is there for `TYPE` and for the command that
needs it. -/
theorem dumpKey_isOk_iff (formats : Formats Score) (order : Order) (ttl : Int) (key : String)
    {view : View Score} {value : Value Score} (lasts : Lasts view value) (kept : value.Kept) :
    (∃ lines, dumpKey formats order view ttl key = .ok lines) ↔
      view 1 ≠ none ∧ view (lastNeeded value) ≠ none := by
  have mapped : ∀ {α : Type} (read : Except DumpError α) (write : α → List Line),
      (∃ lines, read.map write = .ok lines) ↔ ∃ found, read = .ok found := by
    intro α read write
    cases read with
    | error err =>
      constructor
      · rintro ⟨lines, isOk⟩
        cases isOk
      · rintro ⟨found, isOk⟩
        cases isOk
    | ok found => exact ⟨fun _ => ⟨found, rfl⟩, fun _ => ⟨_, rfl⟩⟩
  unfold dumpKey
  rcases lasts.same 1 with atType | gone
  · have there : view 1 ≠ none := by simp [atType]
    simp only [atType, ne_eq, reduceCtorEq, not_false_eq_true, true_and]
    cases value with
    | string text =>
      simp only [typeReply, mapped, lastNeeded]
      rcases lasts.same 2 with same | vanished
      · simp [same, get]
      · simp [vanished, get]
    | list items =>
      simp only [typeReply, mapped, lastNeeded]
      rcases lasts.same 2 with same | vanished
      · simp [same, lRange, there]
      · simp [vanished, lRange, there]
    | set members =>
      simp only [typeReply, mapped, lastNeeded]
      rcases lasts.same 2 with same | vanished
      · simp [same, sMembers, there]
      · simp [vanished, sMembers, there]
    | hash fields =>
      simp only [typeReply, mapped, lastNeeded]
      rcases lasts.same 2 with same | vanished
      · simp [same, hGetAll, there]
      · simp [vanished, hGetAll, there]
    | zset members =>
      simp only [typeReply, mapped, lastNeeded]
      rcases lasts.same 2 with same | vanished
      · simp [same, zRangeWithScores, there]
      · simp [vanished, zRangeWithScores, there]
    | stream entries groups =>
      simp only [typeReply, mapped, lastNeeded]
      exact stream_isOk_iff lasts
    | other type payload =>
      have named : ¬ (TypeReply.other type).text = "" := kept
      simp only [typeReply, named, if_false, mapped, lastNeeded]
      rcases lasts.same 2 with same | vanished
      · simp [same, dumpBlob]
      · simp [vanished, dumpBlob]
  · have noReply : view 2 = none := lasts.stays 1 2 (by decide) gone
    simp only [gone, typeReply, ne_eq, not_true_eq_false, false_and, iff_false]
    rw [if_neg (by decide), noReply]
    rintro ⟨lines, isOk⟩
    cases isOk

/-! ### A database that loses keys -/

/-- A run: what the keys hold, when they vanish, and what `SCAN` returns. `gone key i j` is what the
`j`-th command on the `i`-th returned key would find. -/
structure Run (Score : Type) where
  held : String → Option (Value Score)
  kept : ∀ key value, held key = some value → value.Kept
  gone : String → Nat → Nat → Bool
  stays : ∀ key i j i' j', i < i' ∨ i = i' ∧ j ≤ j' → gone key i j = true → gone key i' j' = true
  ttl : Nat → Int
  order : Nat → Order
  pages : List (List String)
  /-- `SCAN` returns keys of the database, and those that stay at least once. -/
  returned : ∀ key ∈ pages.flatten, held key ≠ none
  complete : ∀ key, held key ≠ none → (∀ i j, gone key i j = false) → key ∈ pages.flatten

namespace Run

variable (run : Run Score)

def view (key : String) (i : Nat) : View Score := fun j =>
  if run.gone key i j then none else run.held key

def scanned : List (Scanned Score) :=
  run.pages.flatten.mapIdx fun i key => ⟨key, run.view key i, run.ttl i, run.order i⟩

/-- The key exists unchanged during the whole run. -/
def Stays (key : String) : Prop := run.held key ≠ none ∧ ∀ i j, run.gone key i j = false

/-- What is dumped for a key that nothing happens to is part of the output, with a line that gives
it a value. -/
def InOutput (formats : Formats Score) (key : String) : Prop :=
  ∃ order ttl lines, dumpKey formats order (fun _ => run.held key) ttl key = .ok lines ∧
    (∃ line ∈ lines, line.verb ≠ "EXPIRE") ∧ lines <:+: (dump formats run.scanned).lines

structure Unbroken (formats : Formats Score) : Prop where
  succeeds : dumpError formats run.scanned = none
  complete : ∀ key, run.Stays key → run.InOutput formats key

/-- The returned keys are there when their commands need them, and no key that stays is a stream
without entries and groups. -/
structure Spared : Prop where
  needed : ∀ i key value, run.pages.flatten[i]? = some key → run.held key = some value →
    run.gone key i 1 = false ∧ run.gone key i (lastNeeded value) = false
  notEmpty : ∀ key, run.Stays key → run.held key ≠ some (.stream [] [])

variable {run}

variable {key : String}

theorem lasts {value : Value Score} (holds : run.held key = some value) (i : Nat) :
    Lasts (run.view key i) value where
  same := by
    intro n
    unfold view
    split
    · exact .inr rfl
    · exact .inl holds
  stays := by
    intro m n later gone
    unfold view at gone ⊢
    split at gone
    next isGone => rw [if_pos (run.stays key i m i n (.inr ⟨rfl, later⟩) isGone)]
    next => rw [holds] at gone; cases gone

theorem view_ne_none_iff {value : Value Score} (holds : run.held key = some value)
    (i j : Nat) : run.view key i j ≠ none ↔ run.gone key i j = false := by
  unfold view
  rw [holds]
  cases run.gone key i j with
  | false => exact ⟨fun _ => rfl, fun _ => nofun⟩
  | true => exact ⟨fun there => absurd rfl there, nofun⟩

theorem mem_scanned_iff {one : Scanned Score} :
    one ∈ run.scanned ↔ ∃ i key, run.pages.flatten[i]? = some key ∧
      one = ⟨key, run.view key i, run.ttl i, run.order i⟩ := by
  unfold scanned
  rw [List.mem_iff_getElem?]
  simp only [List.getElem?_mapIdx, Option.map_eq_some_iff]
  constructor
  · rintro ⟨i, key, atIndex, rfl⟩
    exact ⟨i, key, atIndex, rfl⟩
  · rintro ⟨i, key, atIndex, rfl⟩
    exact ⟨i, key, atIndex, rfl⟩

/-- The dump succeeds exactly when every returned key is there when it is needed. -/
theorem succeeds_iff (formats : Formats Score) : dumpError formats run.scanned = none ↔
      ∀ i key value, run.pages.flatten[i]? = some key → run.held key = some value →
        run.gone key i 1 = false ∧ run.gone key i (lastNeeded value) = false := by
  rw [dumpError_eq_none_iff]
  constructor
  · intro all i key value atIndex holds
    have ok := all _ (mem_scanned_iff.mpr ⟨i, key, atIndex, rfl⟩)
    have needed := (dumpKey_isOk_iff formats _ _ key (lasts holds i) (run.kept key value holds)).mp ok
    exact ⟨(view_ne_none_iff holds i 1).mp needed.1, (view_ne_none_iff holds i _).mp needed.2⟩
  · rintro needed one mem
    obtain ⟨i, key, atIndex, rfl⟩ := mem_scanned_iff.mp mem
    obtain ⟨value, holds⟩ :=
      Option.ne_none_iff_exists'.mp (run.returned key (List.mem_of_getElem? atIndex))
    have there := needed i key value atIndex holds
    exact (dumpKey_isOk_iff formats _ _ key (lasts holds i) (run.kept key value holds)).mpr
      ⟨(view_ne_none_iff holds i 1).mpr there.1, (view_ne_none_iff holds i _).mpr there.2⟩

theorem view_of_stays (stays : run.Stays key) (i : Nat) :
    run.view key i = fun _ => run.held key := by
  funext j
  unfold view
  rw [stays.2 i j]
  rfl

theorem unbroken_iff (run : Run Score) (formats : Formats Score) :
    run.Unbroken formats ↔ run.Spared := by
  constructor
  · rintro ⟨succeeds, complete⟩
    refine ⟨(succeeds_iff formats).mp succeeds, fun key stays isEmpty => ?_⟩
    obtain ⟨order, ttl, lines, dumped, ⟨line, mem, givesValue⟩, -⟩ := complete key stays
    have kept : (Value.stream [] [] : Value Score).Kept := trivial
    rw [isEmpty, dumpKey_static formats order ttl key kept] at dumped
    cases dumped
    exact givesValue (verb_of_mem_writeKeyTTL mem)
  · rintro ⟨needed, notEmpty⟩
    refine ⟨(succeeds_iff formats).mpr needed, fun key stays => ?_⟩
    obtain ⟨value, holds⟩ := Option.ne_none_iff_exists'.mp stays.1
    obtain ⟨i, atIndex⟩ := List.mem_iff_getElem?.mp (run.complete key stays.1 stays.2)
    have kept := run.kept key value holds
    have dumped := dumpKey_static formats (run.order i) (run.ttl i) key kept
    refine ⟨run.order i, run.ttl i, _, holds ▸ dumped, ?_, ?_⟩
    · refine exists_valueLine formats _ key _ kept fun isEmpty => ?_
      exact notEmpty key stays (isEmpty ▸ holds)
    · refine infix_dump formats (mem_scanned_iff.mpr ⟨i, key, atIndex, rfl⟩) ?_
      dsimp only
      rw [view_of_stays stays i, holds]
      exact dumped

end Run

/-! ### A session that expires -/

/-- One key, which expires between `SCAN` and its first command. -/
def expiringRun : Run Unit where
  held := fun key => if key = "session" then some (.string "token") else none
  kept := by
    intro key value holds
    split at holds
    · cases holds
      trivial
    · cases holds
  gone := fun _ _ _ => true
  stays := fun _ _ _ _ _ _ _ => rfl
  ttl := fun _ => -2
  order := fun _ => asReplied
  pages := [["session"]]
  returned := by
    intro key mem
    rw [List.flatten_singleton, List.mem_singleton] at mem
    rw [if_pos mem]
    nofun
  complete := fun _ _ never => nomatch never 0 0

theorem expiring_breaks_dump : ¬ expiringRun.Unbroken ⟨fun _ => "", id⟩ := by
  intro unbroken
  have needed := (Run.succeeds_iff _).mp unbroken.succeeds 0 "session" (.string "token") rfl rfl
  cases needed.1

end DbBackup.Engine.Redis.Dump
