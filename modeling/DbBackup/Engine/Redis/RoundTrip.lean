import DbBackup.Engine.Redis.Keyspace

/-!
Owns which keyspaces a dump restores.

Contract: `Keyspace.restores_iff`. A key's commands follow each other in one block for each time
`SCAN` returned the key. Lists and streams must be returned once, as their commands cannot be
repeated; the pairs of a stream entry keep their order only when there is one, as they pass through
a map; and a stream with nothing in it leaves no line.
-/

set_option linter.all false

namespace DbBackup.Engine.Redis.Dump

open Lib Lib.LineScan

variable {Score : Type} {libs : Libraries Score} {now : Nat} {sent : Sent} {key : String}
  {ttlSec : Int}

/-! ### Several blocks of one key -/

variable {blocks : List (List (Command Score))}

theorem replay_repeatable {value : Value Score} (repeatable : value.Repeatable)
    (valid : value.Valid libs)
    (all : ∀ block ∈ blocks, Block sent now key ttlSec value block) {held : Option (Held Score)}
    (absorbs : Absorbs value held) (something : blocks ≠ [] ∨ held ≠ none) :
    ∃ after, replay libs now blocks.flatten held = some (some after) ∧
      after.value.Same value := by
  induction blocks generalizing held with
  | nil =>
    rcases absorbs with isNone | ⟨old, rfl, same⟩
    · exact absurd isNone (something.resolve_left (by simp))
    · exact ⟨old, rfl, same⟩
  | cons block blocks ih =>
    obtain ⟨first, others⟩ := List.forall_mem_cons.mp all
    obtain ⟨mid, replayed, same⟩ := again_of_block repeatable valid first absorbs
    obtain ⟨after, rest, sameAfter⟩ :=
      ih others (.inr ⟨mid, rfl, same⟩) (.inr nofun)
    refine ⟨after, ?_, sameAfter⟩
    rw [List.flatten_cons, replay_append, replayed, Option.bind_some, rest]

/-- A list grows by its items with each block. -/
theorem replay_lists {items : List String} {blocks : List (List (Command Score))}
    (all : ∀ block ∈ blocks, Block sent now key ttlSec (.list items) block)
    {held : Option (Held Score)} {old : List String} (isList : asList held = some old) :
    ∃ after, replay libs now blocks.flatten held = some after ∧
      asList after = some (old ++ (List.replicate blocks.length items).flatten) := by
  induction blocks generalizing held old with
  | nil => exact ⟨held, rfl, by simpa using isList⟩
  | cons block blocks ih =>
    obtain ⟨first, others⟩ := List.forall_mem_cons.mp all
    obtain ⟨⟨value, expiry⟩, replayed, grown⟩ := @list_block _ libs _ _ _ _ _ _ first _ _ isList
    cases grown
    obtain ⟨after, rest, isAfter⟩ := ih others
      (show asList (some ⟨.list (old ++ items), expiry⟩) = _ from rfl)
    refine ⟨after, ?_, ?_⟩
    · rw [List.flatten_cons, replay_append, replayed, Option.bind_some, rest]
    · rw [isAfter, List.length_cons, List.replicate_succ, List.flatten_cons, List.append_assoc]

theorem value_of_asList {held : Held Score} {items : List String}
    (isList : asList (some held) = some items) : held.value = .list items := by
  obtain ⟨value, expiry⟩ := held
  cases value with
  | list own =>
    cases isList
    rfl
  | _ => cases isList

/-- A list comes back when there is one block. -/
theorem list_restored_iff {items : List String} (someItems : items ≠ [])
    (all : ∀ block ∈ blocks, Block sent now key ttlSec (.list items) block) :
    (∃ held, replay libs now blocks.flatten none = some (some held) ∧
      held.value.Same (.list items)) ↔ blocks.length = 1 := by
  obtain ⟨after, replayed, isAfter⟩ := @replay_lists _ libs _ _ _ _ _ _ all none [] rfl
  rw [List.nil_append] at isAfter
  have positive := List.length_pos_iff.mpr someItems
  constructor
  · rintro ⟨held, isHeld, same⟩
    rw [replayed, Option.some.injEq] at isHeld
    rw [isHeld] at isAfter
    rw [value_of_asList isAfter] at same
    have lengths := congrArg List.length (show _ = items from same)
    rw [List.length_flatten, List.map_replicate, List.sum_replicate_nat] at lengths
    exact Nat.eq_of_mul_eq_mul_right positive (lengths.trans (Nat.one_mul _).symm)
  · intro once
    rw [once, List.replicate_one, List.flatten_singleton] at isAfter
    cases after with
    | none =>
      cases isAfter
      exact absurd rfl someItems
    | some held =>
      refine ⟨held, replayed, ?_⟩
      rw [value_of_asList isAfter]
      rfl

/-! ### Streams -/

theorem replay_expire_missing {cmds : List (Command Score)}
    (sentAs : List.Forall₂ (SentAs sent) (expireCommands now key ttlSec) cmds) :
    replay libs now cmds none = some none := by
  unfold expireCommands at sentAs
  split at sentAs
  next =>
    obtain ⟨cmd, rest, ⟨n, rfl⟩, none, rfl⟩ := List.forall₂_cons_left_iff.mp sentAs
    rw [List.forall₂_nil_left_iff.mp none]
    rfl
  next =>
    rw [List.forall₂_nil_left_iff.mp sentAs]
    rfl

/-- Nothing is restored for a stream with nothing in it. -/
theorem replay_empty_stream
    (all : ∀ block ∈ blocks, Block sent now key ttlSec (.stream [] []) block) :
    replay libs now blocks.flatten none = some none := by
  induction blocks with
  | nil => rfl
  | cons block blocks ih =>
    obtain ⟨first, others⟩ := List.forall_mem_cons.mp all
    obtain ⟨xadds, xgroups, expiring, rfl, xaddsSent, xgroupsSent, expireSent⟩ :=
      stream_parts first
    rw [List.forall₂_nil_left_iff.mp xaddsSent, List.forall₂_nil_left_iff.mp xgroupsSent,
      List.nil_append, List.nil_append, List.flatten_cons, replay_append,
      replay_expire_missing expireSent, Option.bind_some, ih others]

theorem stream_once {entries : List (String × List (String × String))}
    {groups : List (String × String)} (valid : (Value.stream entries groups).Valid libs)
    (all : ∀ block ∈ blocks, Block sent now key ttlSec (.stream entries groups) block)
    {held : Held Score} (replayed : replay libs now blocks.flatten none = some (some held))
    (same : held.value.Same (.stream entries groups)) :
    blocks.length = 1 ∧ (entries ≠ [] ∨ groups ≠ []) ∧
      ∀ entry ∈ entries, ∃ n, entry.2 = sent.fields n (sortedValues entry.2) := by
  have something : entries ≠ [] ∨ groups ≠ [] := by
    by_contra nothing
    obtain ⟨noEntries, noGroups⟩ := not_or.mp nothing
    rw [not_ne_iff.mp noEntries, not_ne_iff.mp noGroups] at all
    rw [replay_empty_stream all] at replayed
    cases replayed
  cases blocks with
  | nil => cases replayed
  | cons block blocks =>
    obtain ⟨first, others⟩ := List.forall_mem_cons.mp all
    obtain ⟨restored, after, firstReplayed, restoredAs, isAfter⟩ :=
      stream_block valid something first
    rw [List.flatten_cons, replay_append, firstReplayed, Option.bind_some] at replayed
    cases blocks with
    | nil =>
      cases replayed
      rw [isAfter] at same
      refine ⟨rfl, something, fun entry mem => ?_⟩
      rw [(show restored = entries from same.1)] at restoredAs
      exact (List.forall₂_same.mp restoredAs entry mem).2
    | cons next blocks =>
      -- The second block fails at its first command.
      have again := stream_block_again valid something (others next List.mem_cons_self)
        restoredAs isAfter
      rw [List.flatten_cons, replay_append, again] at replayed
      cases replayed

theorem sortedValues_singleton (field : String × String) : sortedValues [field] = [field] := by
  have unique : ([field].map Prod.fst).Nodup := List.nodup_singleton _
  rw [sortedValues, lastBindings_of_nodup unique, List.mergeSort_singleton]

theorem restoredEntry_single {entry restored : String × List (String × String)}
    (single : entry.2.length = 1) (restoredAs : RestoredEntry sent entry restored) :
    restored = entry := by
  obtain ⟨field, isField⟩ := List.length_eq_one_iff.mp single
  obtain ⟨sameId, n, pairs⟩ := restoredAs
  rw [isField, sortedValues_singleton] at pairs
  refine Prod.ext sameId ?_
  rw [pairs, isField]
  exact List.perm_singleton.mp (sent.perm n [field])

theorem restored_of_single {entries restored : List (String × List (String × String))}
    (single : ∀ entry ∈ entries, entry.2.length = 1)
    (restoredAs : List.Forall₂ (RestoredEntry sent) entries restored) : restored = entries := by
  induction restoredAs with
  | nil => rfl
  | cons own _ ih =>
    obtain ⟨first, others⟩ := List.forall_mem_cons.mp single
    rw [restoredEntry_single first own, ih others]

theorem stream_restored {entries : List (String × List (String × String))}
    {groups : List (String × String)} (valid : (Value.stream entries groups).Valid libs)
    (something : entries ≠ [] ∨ groups ≠ []) (single : ∀ entry ∈ entries, entry.2.length = 1)
    (once : blocks.length = 1)
    (all : ∀ block ∈ blocks, Block sent now key ttlSec (.stream entries groups) block) :
    ∃ held, replay libs now blocks.flatten none = some (some held) ∧
      held.value.Same (.stream entries groups) := by
  obtain ⟨block, rfl⟩ := List.length_eq_one_iff.mp once
  obtain ⟨restored, after, replayed, restoredAs, isAfter⟩ :=
    stream_block valid something (all block (List.mem_singleton_self _))
  refine ⟨after, by rwa [List.flatten_singleton], ?_⟩
  rw [isAfter, restored_of_single single restoredAs]
  exact ⟨rfl, rfl⟩

/-- A list without repeated keys that is its own reverse has at most one item. -/
theorem length_of_reverse {fields : List (String × String)} (unique : (fields.map Prod.fst).Nodup)
    (same : fields = fields.reverse) : fields.length ≤ 1 := by
  match fields, unique, same with
  | [], _, _ => exact Nat.zero_le 1
  | [_], _, _ => exact Nat.le_refl 1
  | first :: next :: rest, unique, same =>
    have isLast := congrArg List.head? same
    rw [List.head?_reverse, List.head?_cons, List.getLast?_cons_cons] at isLast
    have mem : first.1 ∈ (next :: rest).map Prod.fst :=
      List.mem_map.mpr ⟨first, List.mem_of_getLast? isLast.symm, rfl⟩
    exact absurd mem (List.nodup_cons.mp unique).1

/-! ### Lines that fit -/

theorem length_render_perm {verb : String} {tokens others : List Token}
    (perm : tokens.Perm others) :
    (Line.render ⟨verb, tokens⟩).toList.length = (Line.render ⟨verb, others⟩).toList.length := by
  unfold Line.render
  rw [toList_intercalate, toList_intercalate, List.length_append, List.length_append]
  exact congrArg (verb.toList.length + ·)
    (((perm.map Token.render).flatMap_right _).length_eq)

theorem fits_writeRestore {verb : String} {parts others : List Token} (perm : parts.Perm others)
    (fits : ∀ line ∈ writeRestore verb key parts ttlSec, Fits line.render) :
    ∀ line ∈ writeRestore verb key others ttlSec, Fits line.render := by
  unfold writeRestore at fits ⊢
  by_cases none : parts = []
  · rw [if_pos (List.nil_perm.mp (none ▸ perm))]
    nofun
  · rw [if_neg none] at fits
    have someOther : others ≠ [] := fun isNil => none (List.perm_nil.mp (isNil ▸ perm))
    rw [if_neg someOther]
    obtain ⟨first, others⟩ := List.forall_mem_cons.mp fits
    refine List.forall_mem_cons.mpr ⟨?_, others⟩
    unfold Fits at first ⊢
    rwa [← length_render_perm (perm.cons _)]

/-- The order of a reply does not change the lengths. -/
theorem fits_keyLines (order : Order) {value : Value Score}
    (fits : ∀ line ∈ keyLines libs.toFormats asReplied key ttlSec value, Fits line.render) :
    ∀ line ∈ keyLines libs.toFormats order key ttlSec value, Fits line.render := by
  cases value with
  | set members => exact fits_writeRestore ((order.members_perm members).symm.map _) fits
  | hash fields =>
    exact fits_writeRestore ((order.fields_perm fields).symm.flatMap_right _) fits
  | _ => exact fits

/-! ### The whole keyspace -/

namespace Keyspace

/-- The keyspaces that come back. -/
structure Restorable (space : Keyspace libs) : Prop where
  fits : ∀ key value, space.held key = some value →
    ∀ line ∈ keyLines libs.toFormats asReplied key (space.ttlSec key) value, Fits line.render
  lists : ∀ key items, space.held key = some (.list items) → space.pages.flatten.count key = 1
  streams : ∀ key entries groups, space.held key = some (.stream entries groups) →
    space.pages.flatten.count key = 1 ∧ (entries ≠ [] ∨ groups ≠ []) ∧
      ∀ entry ∈ entries, entry.2.length = 1

/-- In whatever order replies and maps come, and whenever the dump is restored. -/
def Restores (space : Keyspace libs) (banner : Banner) : Prop :=
  ∀ orders now sent, space.RestoresAs banner orders now sent

variable {space : Keyspace libs}

theorem fits_of_restorable (restorable : space.Restorable) (orders : Nat → Order)
    (item : String × Nat) : ∀ line ∈ space.blockLines orders item, Fits line.render := by
  unfold blockLines
  split
  next value isHeld => exact fits_keyLines _ (restorable.fits _ _ isHeld)
  next => nofun

theorem restored_of_restorable (restorable : space.Restorable) (orders : Nat → Order) (now : Nat)
    (sent : Sent) {key : String} {value : Value Score} (isHeld : space.held key = some value) :
    ∃ held, replay libs now (space.sentOn now orders sent key) none = some (some held) ∧
      held.value.Same value := by
  obtain ⟨blocks, shape, many, all⟩ := space.blocks_sentOn isHeld now orders sent
  have valid := space.valid _ _ isHeld
  have someBlocks : blocks ≠ [] := by
    rw [← List.length_pos_iff, many]
    exact List.count_pos_iff.mpr (space.complete _ _ isHeld)
  have repeated (repeatable : value.Repeatable) :=
    replay_repeatable repeatable valid all (.inl rfl) (.inl someBlocks)
  rw [shape]
  cases value with
  | string text => exact repeated trivial
  | set members => exact repeated trivial
  | hash fields => exact repeated trivial
  | zset members => exact repeated trivial
  | list items =>
    exact (list_restored_iff valid all).mpr (many.trans (restorable.lists _ _ isHeld))
  | stream entries groups =>
    obtain ⟨once, something, single⟩ := restorable.streams _ _ _ isHeld
    exact stream_restored valid something single (many.trans once) all
  | other type payload => exact valid.elim

def sentAsGiven : Sent := ⟨fun _ items => items, fun _ _ => .refl _⟩

def sentBackwards : Sent := ⟨fun _ items => items.reverse, fun _ items => items.reverse_perm⟩

theorem streams_of_restores (banner : Banner) (restores : space.Restores banner) {key : String}
    {entries : List (String × List (String × String))} {groups : List (String × String)}
    (isHeld : space.held key = some (.stream entries groups)) :
    space.pages.flatten.count key = 1 ∧ (entries ≠ [] ∨ groups ≠ []) ∧
      ∀ entry ∈ entries, entry.2.length = 1 := by
  have valid := space.valid _ _ isHeld
  have any (sent : Sent) : space.pages.flatten.count key = 1 ∧ (entries ≠ [] ∨ groups ≠ []) ∧
      ∀ entry ∈ entries, ∃ n, entry.2 = sent.fields n (sortedValues entry.2) := by
    obtain ⟨-, values⟩ := (space.restoresAs_iff banner (fun _ => asReplied) 0 sent).mp
      (restores _ _ _)
    obtain ⟨blocks, shape, many, all⟩ := space.blocks_sentOn isHeld 0 (fun _ => asReplied) sent
    obtain ⟨held, replayed, same⟩ := values _ _ isHeld
    rw [shape] at replayed
    rw [← many]
    exact stream_once valid all replayed same
  obtain ⟨once, something, asGiven⟩ := any sentAsGiven
  obtain ⟨-, -, backwards⟩ := any sentBackwards
  refine ⟨once, something, fun entry mem => ?_⟩
  obtain ⟨_, isSorted⟩ := asGiven entry mem
  obtain ⟨_, isReversed⟩ := backwards entry mem
  have sorted : entry.2 = sortedValues entry.2 := isSorted
  have unique := nodup_sortedValues entry.2
  rw [← sorted] at unique
  have atMost := length_of_reverse unique (isReversed.trans (congrArg List.reverse sorted.symm))
  have atLeast := List.length_pos_iff.mpr (valid.2.1 entry mem)
  omega

theorem restorable_of_restores (banner : Banner) (restores : space.Restores banner) :
    space.Restorable where
  fits := by
    intro key value isHeld line mem
    obtain ⟨fits, -⟩ := (space.restoresAs_iff banner (fun _ => asReplied) 0 sentAsGiven).mp
      (restores _ _ _)
    obtain ⟨i, atIndex⟩ := List.mem_iff_getElem?.mp (space.complete _ _ isHeld)
    refine fits (key, i) (List.mk_mem_zipIdx_iff_getElem?.mpr atIndex) line ?_
    simpa only [blockLines, isHeld] using mem
  lists := by
    intro key items isHeld
    obtain ⟨-, values⟩ := (space.restoresAs_iff banner (fun _ => asReplied) 0 sentAsGiven).mp
      (restores _ _ _)
    obtain ⟨blocks, shape, many, all⟩ :=
      space.blocks_sentOn isHeld 0 (fun _ => asReplied) sentAsGiven
    have restored := values _ _ isHeld
    rw [shape, list_restored_iff (space.valid _ _ isHeld) all] at restored
    rw [← many, restored]
  streams := fun _ _ _ isHeld => streams_of_restores banner restores isHeld

/-- A dump restores the keyspace exactly when every line fits, every list and every stream was
returned once, and every stream has something in it and no entry of several pairs. -/
theorem restores_iff (space : Keyspace libs) (banner : Banner) :
    space.Restores banner ↔ space.Restorable := by
  refine ⟨restorable_of_restores banner, fun restorable orders now sent => ?_⟩
  refine (space.restoresAs_iff banner orders now sent).mpr ⟨fun item _ => ?_, ?_⟩
  · exact fits_of_restorable restorable orders item
  · exact fun _ _ isHeld => restored_of_restorable restorable orders now sent isHeld

end Keyspace

/-! ### A list that is returned twice -/

theorem plain_one : Plain "1" := plain_of_all (by decide) (by decide)

/-- Sorted sets with one score. -/
def oneScore : Libraries Unit where
  formatFloat _ := "1"
  encodeBlob _ := "1"
  parseFloat _ := some ()
  decodeBlob _ := some ""
  restoreBlob _ := none
  idLess first second := decide (first < second)
  parse_format _ := rfl
  format_plain _ := plain_one
  encode_plain _ := plain_one
  idLess_irrefl id := decide_eq_false (String.lt_irrefl id)
  idLess_trans _ _ _ first second :=
    decide_eq_true (String.lt_trans (of_decide_eq_true first) (of_decide_eq_true second))

def shortTexts : BannerTexts := ⟨"1.0", "2026-01-01T00:00:00Z", "Host: localhost:6379", 0⟩

theorem shortTexts_lines : shortTexts.lines.all (fun line =>
    decide (OneLine line) && decide (line.toList.length < maxTokenSize)) = true := by
  decide +kernel

theorem shortTexts_line {line : String} (mem : line ∈ shortTexts.lines) :
    OneLine line ∧ Fits line := by
  have holds := List.all_eq_true.mp shortTexts_lines line mem
  rw [Bool.and_eq_true, decide_eq_true_eq, decide_eq_true_eq] at holds
  exact holds

def shortBanner : Banner :=
  { shortTexts with
    oneLine := fun _ mem => (shortTexts_line mem).1
    fits := fun _ mem => (shortTexts_line mem).2 }

theorem held_jobs {key : String} {value : Value Unit}
    (isHeld : (if key = "jobs" then some (.list ["a", "b"]) else none) = some value) :
    key = "jobs" ∧ value = .list ["a", "b"] := by
  split at isHeld
  next same => exact ⟨same, (Option.some.inj isHeld).symm⟩
  next => cases isHeld

/-- A list that stands on two pages. -/
def returnedTwice : Keyspace oneScore where
  held key := if key = "jobs" then some (.list ["a", "b"]) else none
  ttl _ := -1
  pages := [["jobs"], ["jobs"]]
  valid _ _ isHeld := (held_jobs isHeld).2 ▸ List.cons_ne_nil _ _
  ttl_le _ := by decide
  returned key mem := ⟨.list ["a", "b"], if_pos (by simpa using mem)⟩
  complete _ _ isHeld := (held_jobs isHeld).1 ▸ List.mem_cons_self

theorem returnedTwice_not_restored : ¬ returnedTwice.Restores shortBanner := by
  intro restores
  have once := (Keyspace.restorable_of_restores shortBanner restores).lists "jobs" ["a", "b"] rfl
  exact absurd once (by decide)

end DbBackup.Engine.Redis.Dump
