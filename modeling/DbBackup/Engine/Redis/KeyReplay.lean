import DbBackup.Engine.Redis.DumpedCommands

/-!
Owns what the commands of one key do to it: the commands of one dump of the key (`Block`), run on
what the key holds already.

Strings, sets, hashes and sorted sets come out the same however often they are dumped
(`again_of_block`). A list grows each time (`list_block`). A stream takes its entries once
(`stream_block`) and fails the second time (`stream_block_again`).
-/

set_option linter.all false

namespace DbBackup.Engine.Redis.Dump

open Lib

variable {Score : Type} {libs : Libraries Score} {now : Nat} {sent : Sent}

/-! ### Commands as they are sent -/

def SentAs (sent : Sent) (cmd sentCmd : Command Score) : Prop := ∃ n, sentCmd = send sent n cmd

theorem forall₂_sendAll (sent : Sent) (n : Nat) (cmds : List (Command Score)) :
    List.Forall₂ (SentAs sent) cmds (sendAll sent n cmds) := by
  induction cmds generalizing n with
  | nil => exact .nil
  | cons cmd cmds ih => exact .cons ⟨n, rfl⟩ (ih _)

theorem commandKey_send (sent : Sent) (n : Nat) (cmd : Command Score) :
    commandKey (send sent n cmd) = commandKey cmd := by
  cases cmd <;> rfl

variable {key : String}

theorem commandKey_of_sent {cmds sentCmds : List (Command Score)}
    (sentAs : List.Forall₂ (SentAs sent) cmds sentCmds) (all : ∀ cmd ∈ cmds, commandKey cmd = key) :
    ∀ cmd ∈ sentCmds, commandKey cmd = key := by
  induction sentAs with
  | nil => nofun
  | cons sentFirst _ ih =>
    obtain ⟨n, rfl⟩ := sentFirst
    obtain ⟨first, others⟩ := List.forall_mem_cons.mp all
    refine List.forall_mem_cons.mpr ⟨?_, ih others⟩
    rw [commandKey_send, first]

variable {ttlSec : Int} {value : Value Score}

theorem commandKey_keyCommands
    {cmd : Command Score} (mem : cmd ∈ keyCommands now key ttlSec value) :
    commandKey cmd = key := by
  have expiring : ∀ cmd ∈ (expireCommands now key ttlSec : List (Command Score)),
      commandKey cmd = key := by
    intro cmd mem
    unfold expireCommands at mem
    split at mem
    · rw [List.mem_singleton.mp mem]
      rfl
    · cases mem
  cases value with
  | string text =>
    rw [List.mem_singleton.mp mem]
    rfl
  | list items => exact (List.mem_cons.mp mem).elim (fun same => same ▸ rfl) (expiring cmd)
  | set members => exact (List.mem_cons.mp mem).elim (fun same => same ▸ rfl) (expiring cmd)
  | hash fields => exact (List.mem_cons.mp mem).elim (fun same => same ▸ rfl) (expiring cmd)
  | zset members => exact (List.mem_cons.mp mem).elim (fun same => same ▸ rfl) (expiring cmd)
  | stream entries groups =>
    rcases List.mem_append.mp mem with both | last
    · rcases List.mem_append.mp both with isXadd | isXgroup
      · obtain ⟨entry, -, rfl⟩ := List.mem_map.mp isXadd
        rfl
      · obtain ⟨group, -, rfl⟩ := List.mem_map.mp isXgroup
        rfl
    · exact expiring cmd last
  | other type payload => cases mem

theorem forall₂_append_left {α β : Type*} {R : α → β → Prop} {first second : List α}
    {all : List β} (related : List.Forall₂ R (first ++ second) all) :
    ∃ front back, List.Forall₂ R first front ∧ List.Forall₂ R second back ∧
      all = front ++ back := by
  induction first generalizing all with
  | nil => exact ⟨[], all, .nil, related, rfl⟩
  | cons item first ih =>
    obtain ⟨own, rest, ownRelated, restRelated, rfl⟩ := List.forall₂_cons_left_iff.mp related
    obtain ⟨front, back, frontRelated, backRelated, rfl⟩ := ih restRelated
    exact ⟨own :: front, back, .cons ownRelated frontRelated, backRelated, rfl⟩

theorem forall₂_exists {α β : Type*} {R : α → β → Prop} {items : List α} {others : List β}
    (related : List.Forall₂ R items others) {item : α} (mem : item ∈ items) :
    ∃ other ∈ others, R item other := by
  induction related with
  | nil => cases mem
  | @cons first other items others own _ ih =>
    rcases List.mem_cons.mp mem with rfl | later
    · exact ⟨other, List.mem_cons_self, own⟩
    · obtain ⟨found, foundMem, isRelated⟩ := ih later
      exact ⟨found, List.mem_cons_of_mem _ foundMem, isRelated⟩

/-- The commands of one dump of a key, as they are sent. -/
def Block (sent : Sent) (now : Nat) (key : String) (ttlSec : Int) (value : Value Score)
    (cmds : List (Command Score)) : Prop :=
  ∃ order, List.Forall₂ (SentAs sent) (keyCommands now key ttlSec (value.reorder order)) cmds

/-- The same value, where order does not count for sets, hashes and sorted sets. -/
def Value.Same : Value Score → Value Score → Prop
  | .string a, .string b => a = b
  | .list a, .list b => a = b
  | .set a, .set b => a.Perm b
  | .hash a, .hash b => a.Perm b
  | .zset a, .zset b => a.Perm b
  | .stream entries groups, .stream entries' groups' => entries = entries' ∧ groups = groups'
  | _, _ => False

abbrev replay (libs : Libraries Score) (now : Nat) :
    List (Command Score) → Option (Held Score) → Option (Option (Held Score)) :=
  Keyed.runKey (applyTo libs now)

theorem replay_append (front back : List (Command Score)) (held : Option (Held Score)) :
    replay libs now (front ++ back) held =
      (replay libs now front held).bind (replay libs now back) :=
  Keyed.runKey_append _ front back held

/-! ### Expiry -/

/-- The second at which a key expires lies ahead. -/
theorem later_seconds {ttlSec : Int} (positive : 0 < ttlSec) : ¬ unix (now + ttlSec * second) ≤ 0 ∧
      ¬ unix (now + ttlSec * second) * 1000 ≤ unixMilli now := by
  unfold unix unixMilli second millisecond
  omega

/-- Setting the time to live keeps the value. -/
theorem replay_expire (key : String) (ttlSec : Int) {cmds : List (Command Score)}
    (sentAs : List.Forall₂ (SentAs sent) (expireCommands now key ttlSec) cmds) (held : Held Score) :
    ∃ after, replay libs now cmds (some held) = some (some after) ∧ after.value = held.value := by
  unfold expireCommands at sentAs
  split at sentAs
  next positive =>
    obtain ⟨cmd, rest, ⟨n, rfl⟩, none, rfl⟩ := List.forall₂_cons_left_iff.mp sentAs
    rw [List.forall₂_nil_left_iff.mp none]
    refine ⟨{ held with expireAt := some (unix (now + ttlSec * second) * 1000) }, ?_, rfl⟩
    simp only [replay, Keyed.runKey, send, applyTo, expire, (later_seconds positive).2, if_false,
      Option.bind_some]
  next =>
    rw [List.forall₂_nil_left_iff.mp sentAs]
    exact ⟨held, rfl, rfl⟩

variable {cmds : List (Command Score)} {held : Option (Held Score)}

/-- One command and the expiry after it. -/
theorem replay_with_expire {cmd : Command Score}
    (sentAs : List.Forall₂ (SentAs sent) (cmd :: expireCommands now key ttlSec) cmds)
    (applies : ∀ n, ∃ own, applyTo libs now (send sent n cmd) held = some (keep held own) ∧
      own.Same value) :
    ∃ after, replay libs now cmds held = some (some after) ∧ after.value.Same value := by
  obtain ⟨first, rest, ⟨n, rfl⟩, restSent, rfl⟩ := List.forall₂_cons_left_iff.mp sentAs
  obtain ⟨own, applied, same⟩ := applies n
  obtain ⟨after, expired, sameValue⟩ :=
    @replay_expire _ libs now sent key ttlSec rest restSent ⟨own, held.bind Held.expireAt⟩
  refine ⟨after, ?_, sameValue ▸ same⟩
  rw [replay, Keyed.runKey, applied]
  exact expired

/-! ### Values that can be written again -/

/-- The key is new, or holds the value already. -/
def Absorbs (value : Value Score) (held : Option (Held Score)) : Prop :=
  held = none ∨ ∃ old, held = some old ∧ old.value.Same value

theorem foldl_assign_absorbed {α κ : Type} [DecidableEq κ] {key : α → κ} {news old : List α}
    (unique : (news.map key).Nodup) (absorbed : ∀ item ∈ old, item ∈ news) :
    news.foldl (assign key) old = news := by
  rw [foldl_assign key unique]
  have none : old.filter (fun item => key item ∉ news.map key) = [] := by
    refine List.filter_eq_nil_iff.mpr fun item mem => ?_
    simpa using ⟨item, absorbed item mem, rfl⟩
  rw [none, List.nil_append]

theorem asSet_of_absorbs {members : List String}
    (absorbs : Absorbs (.set members) held) : ∃ old, asSet held = some old ∧ old ⊆ members := by
  rcases absorbs with rfl | ⟨⟨value, expiry⟩, rfl, same⟩
  · exact ⟨[], rfl, List.nil_subset _⟩
  · cases value with
    | set old => exact ⟨old, rfl, List.Perm.subset same⟩
    | _ => exact same.elim

theorem asHash_of_absorbs {fields : List (String × String)}
    (absorbs : Absorbs (.hash fields) held) : ∃ old, asHash held = some old ∧ old ⊆ fields := by
  rcases absorbs with rfl | ⟨⟨value, expiry⟩, rfl, same⟩
  · exact ⟨[], rfl, List.nil_subset _⟩
  · cases value with
    | hash old => exact ⟨old, rfl, List.Perm.subset same⟩
    | _ => exact same.elim

theorem asZSet_of_absorbs {members : List (Score × String)}
    (absorbs : Absorbs (.zset members) held) : ∃ old, asZSet held = some old ∧ old ⊆ members := by
  rcases absorbs with rfl | ⟨⟨value, expiry⟩, rfl, same⟩
  · exact ⟨[], rfl, List.nil_subset _⟩
  · cases value with
    | zset old => exact ⟨old, rfl, List.Perm.subset same⟩
    | _ => exact same.elim

/-- The types whose commands can be repeated. -/
def Value.Repeatable : Value Score → Prop
  | .string _ => True
  | .set _ => True
  | .hash _ => True
  | .zset _ => True
  | _ => False

theorem again_of_block (repeatable : value.Repeatable) (valid : value.Valid libs)
    (block : Block sent now key ttlSec value cmds)
    (absorbs : Absorbs value held) :
    ∃ after, replay libs now cmds held = some (some after) ∧ after.value.Same value := by
  obtain ⟨order, sentAs⟩ := block
  cases value with
  | string text =>
    obtain ⟨cmd, rest, ⟨n, rfl⟩, none, rfl⟩ := List.forall₂_cons_left_iff.mp sentAs
    rw [List.forall₂_nil_left_iff.mp none]
    by_cases positive : 0 < ttlSec
    · have later := @later_seconds now _ positive
      refine ⟨⟨.string text, some (unix (now + ttlSec * second) * 1000)⟩, ?_, rfl⟩
      simp only [replay, Keyed.runKey, send, applyTo, positive, if_true, later.1, later.2,
        if_false, expire, Option.bind_some]
    · refine ⟨⟨.string text, Option.none⟩, ?_, rfl⟩
      simp only [replay, Keyed.runKey, send, applyTo, positive, if_false, Option.bind_some]
  | set members =>
    obtain ⟨old, isSet, absorbed⟩ := asSet_of_absorbs absorbs
    have perm := order.members_perm members
    refine replay_with_expire sentAs fun n => ⟨.set (order.members members), ?_, perm⟩
    have unique : ((order.members members).map id).Nodup := by
      rw [List.map_id]
      exact perm.nodup_iff.mpr valid.2
    change applyTo libs now (.sadd key (order.members members)) held = _
    rw [applyTo, isSet, Option.map_some,
      foldl_assign_absorbed unique fun item mem => perm.mem_iff.mpr (absorbed mem)]
  | hash fields =>
    obtain ⟨old, isHash, absorbed⟩ := asHash_of_absorbs absorbs
    refine replay_with_expire sentAs fun n =>
      ⟨.hash (sent.fields n (order.fields fields)), ?_, ?_⟩
    · have perm := (sent.perm n (order.fields fields)).trans (order.fields_perm fields)
      have unique : ((sent.fields n (order.fields fields)).map Prod.fst).Nodup :=
        (perm.map Prod.fst).nodup_iff.mpr valid.2
      rw [send, applyTo, isHash, Option.map_some,
        foldl_assign_absorbed unique fun item mem => perm.mem_iff.mpr (absorbed mem)]
    · exact (sent.perm n (order.fields fields)).trans (order.fields_perm fields)
  | zset members =>
    obtain ⟨old, isZSet, absorbed⟩ := asZSet_of_absorbs absorbs
    refine replay_with_expire sentAs fun n => ⟨.zset members, ?_, List.Perm.refl _⟩
    change applyTo libs now (.zadd key members) held = _
    rw [applyTo, isZSet, Option.map_some,
      foldl_assign_absorbed valid.2 fun item mem => absorbed mem]
  | list items => exact repeatable.elim
  | stream entries groups => exact repeatable.elim
  | other type payload => exact repeatable.elim

/-! ### Lists -/

/-- A list grows by its items. -/
theorem list_block {key : String} {ttlSec : Int} {items : List String}
    {cmds : List (Command Score)} (block : Block sent now key ttlSec (.list items) cmds)
    {held : Option (Held Score)} {old : List String} (isList : asList held = some old) :
    ∃ after, replay libs now cmds held = some (some after) ∧
      after.value = .list (old ++ items) := by
  obtain ⟨order, sentAs⟩ := block
  obtain ⟨cmd, rest, ⟨n, rfl⟩, restSent, rfl⟩ := List.forall₂_cons_left_iff.mp sentAs
  obtain ⟨after, expired, same⟩ := @replay_expire _ libs now sent key ttlSec rest restSent
    ⟨.list (old ++ items), held.bind Held.expireAt⟩
  refine ⟨after, ?_, same⟩
  change replay libs now (.rpush key items :: rest) held = _
  rw [replay, Keyed.runKey, applyTo, isList, Option.map_some, Option.bind_some]
  exact expired

/-! ### Streams -/

/-- An entry as it is restored: with its identifier and its pairs in the order they were sent. -/
def RestoredEntry (sent : Sent) (entry restored : String × List (String × String)) : Prop :=
  restored.1 = entry.1 ∧ ∃ n, restored.2 = sent.fields n (sortedValues entry.2)

def lastId (entries : List (String × List (String × String))) : Option String :=
  entries.getLast?.map Prod.fst

/-- The entries are added behind those that are there, as their identifiers are larger. -/
theorem replay_xadds (key : String) {entries : List (String × List (String × String))}
    (ascending : entries.Pairwise fun first second => libs.idLess first.1 second.1 = true)
    {cmds : List (Command Score)}
    (sentAs : List.Forall₂ (SentAs sent)
      (entries.map fun entry => .xadd key entry.1 (sortedValues entry.2)) cmds)
    {held : Option (Held Score)} {old : List (String × List (String × String))}
    {groups : List (String × String)} (isStream : asStream held = some (old, groups))
    (larger : ∀ last ∈ lastId old, ∀ entry ∈ entries, libs.idLess last entry.1 = true) :
    ∃ restored after, replay libs now cmds held = some after ∧
      List.Forall₂ (RestoredEntry sent) entries restored ∧
      asStream after = some (old ++ restored, groups) ∧ (entries ≠ [] → after.isSome = true) ∧
      (entries = [] → after = held) := by
  induction entries generalizing cmds held old with
  | nil =>
    rw [List.forall₂_nil_left_iff.mp sentAs]
    exact ⟨[], held, rfl, .nil, by rw [List.append_nil, isStream], fun none => absurd rfl none,
      fun _ => rfl⟩
  | cons entry entries ih =>
    obtain ⟨cmd, rest, ⟨n, rfl⟩, restSent, rfl⟩ := List.forall₂_cons_left_iff.mp sentAs
    obtain ⟨behind, others⟩ := List.pairwise_cons.mp ascending
    have accepted : (old.getLast?.map fun last => libs.idLess last.1 entry.1).getD true =
        true := by
      cases last : old.getLast? with
      | none => rfl
      | some own =>
        exact larger own.1 (by rw [lastId, last]; rfl) entry List.mem_cons_self
    obtain ⟨restored, after, replayed, restoredAs, isAfter, -, same⟩ :=
      ih others restSent
        (show asStream (keep held (.stream
          (old ++ [(entry.1, sent.fields n (sortedValues entry.2))]) groups)) = _ from rfl) (by
          rintro last isLast other mem
          rw [lastId, List.getLast?_concat] at isLast
          cases isLast
          exact behind other mem)
    refine ⟨(entry.1, sent.fields n (sortedValues entry.2)) :: restored, after, ?_,
      .cons ⟨rfl, n, rfl⟩ restoredAs, ?_, fun _ => ?_, nofun⟩
    · change replay libs now (.xadd key entry.1 (sent.fields n (sortedValues entry.2)) :: rest)
        held = _
      rw [replay, Keyed.runKey, applyTo, isStream, Option.bind_some]
      dsimp only
      rw [if_pos accepted, Option.bind_some]
      exact replayed
    · rw [isAfter, List.append_assoc, List.singleton_append]
    · cases after with
      | some _ => rfl
      | none =>
        rw [asStream] at isAfter
        have length := congrArg (fun found => (found.map fun s => s.1.length).getD 0) isAfter
        simp at length

theorem replay_xgroups (key : String) {groups : List (String × String)}
    (unique : (groups.map Prod.fst).Nodup) {cmds : List (Command Score)}
    (sentAs : List.Forall₂ (SentAs sent)
      (groups.map fun group => .xgroupCreate key group.1 group.2 true) cmds)
    {held : Option (Held Score)} {entries : List (String × List (String × String))}
    {old : List (String × String)} (isStream : asStream held = some (entries, old))
    (new : ∀ group ∈ groups, group.1 ∉ old.map Prod.fst) :
    ∃ after, replay libs now cmds held = some after ∧
      asStream after = some (entries, old ++ groups) ∧
      (groups ≠ [] ∨ held.isSome = true → after.isSome = true) := by
  induction groups generalizing cmds held old with
  | nil =>
    rw [List.forall₂_nil_left_iff.mp sentAs]
    exact ⟨held, rfl, by rw [List.append_nil, isStream], fun some => some.resolve_left (by simp)⟩
  | cons group groups ih =>
    obtain ⟨cmd, rest, ⟨n, rfl⟩, restSent, rfl⟩ := List.forall₂_cons_left_iff.mp sentAs
    obtain ⟨notLater, others⟩ := List.nodup_cons.mp unique
    obtain ⟨after, replayed, isAfter, isSome⟩ := ih others restSent
      (show asStream (keep held (.stream entries (old ++ [(group.1, group.2)]))) = _ from rfl) (by
        intro other mem
        rw [List.map_append, List.mem_append, List.map_singleton, List.mem_singleton, not_or]
        refine ⟨new other (List.mem_cons_of_mem _ mem), fun same => notLater ?_⟩
        exact List.mem_map.mpr ⟨other, mem, same⟩)
    refine ⟨after, ?_, ?_, fun _ => isSome (.inr rfl)⟩
    · change replay libs now (.xgroupCreate key group.1 group.2 true :: rest) held = _
      rw [replay, Keyed.runKey, applyTo, Bool.not_true, Bool.and_false,
        if_neg (by decide), isStream, Option.bind_some]
      dsimp only
      rw [if_neg (new group List.mem_cons_self), Option.bind_some]
      exact replayed
    · rw [isAfter, List.append_assoc, List.singleton_append]

variable {entries : List (String × List (String × String))} {groups : List (String × String)}

/-- The three parts of a stream's commands. -/
theorem stream_parts (block : Block sent now key ttlSec (.stream entries groups) cmds) :
    ∃ xadds xgroups expiring, cmds = xadds ++ (xgroups ++ expiring) ∧
      List.Forall₂ (SentAs sent) (entries.map fun entry => .xadd key entry.1 (sortedValues entry.2))
        xadds ∧
      List.Forall₂ (SentAs sent) (groups.map fun group => .xgroupCreate key group.1 group.2 true)
        xgroups ∧
      List.Forall₂ (SentAs sent) (expireCommands now key ttlSec) expiring := by
  obtain ⟨order, sentAs⟩ := block
  obtain ⟨both, expiring, bothSent, expireSent, rfl⟩ := forall₂_append_left sentAs
  obtain ⟨xadds, xgroups, xaddsSent, xgroupsSent, rfl⟩ := forall₂_append_left bothSent
  exact ⟨xadds, xgroups, expiring, List.append_assoc .., xaddsSent, xgroupsSent, expireSent⟩

theorem value_of_asStream {held : Held Score}
    (isStream : asStream (some held) = some (entries, groups)) :
    held.value = .stream entries groups := by
  obtain ⟨value, expiry⟩ := held
  cases value with
  | stream own ownGroups =>
    cases isStream
    rfl
  | _ => cases isStream

/-- A new stream takes its entries and groups. -/
theorem stream_block
    (valid : (Value.stream entries groups).Valid libs) (something : entries ≠ [] ∨ groups ≠ [])
    (block : Block sent now key ttlSec (.stream entries groups) cmds) :
    ∃ restored after, replay libs now cmds none = some (some after) ∧
      List.Forall₂ (RestoredEntry sent) entries restored ∧ after.value = .stream restored groups := by
  obtain ⟨xadds, xgroups, expiring, rfl, xaddsSent, xgroupsSent, expireSent⟩ := stream_parts block
  obtain ⟨restored, mid, added, restoredAs, isMid, midSome, -⟩ :=
    @replay_xadds _ libs now sent key _ valid.1 _ xaddsSent none [] [] rfl nofun
  rw [List.nil_append] at isMid
  obtain ⟨last, grouped, isLast, lastSome⟩ :=
    @replay_xgroups _ libs now sent key _ valid.2.2 _ xgroupsSent _ _ _ isMid fun _ _ => nofun
  rw [List.nil_append] at isLast
  cases last with
  | none =>
    have isSome := lastSome (something.symm.imp id midSome)
    cases isSome
  | some held =>
    obtain ⟨after, expired, same⟩ :=
      @replay_expire _ libs now sent key ttlSec _ expireSent held
    refine ⟨restored, after, ?_, restoredAs, same.trans (value_of_asStream isLast)⟩
    rw [replay_append, added, Option.bind_some, replay_append, grouped, Option.bind_some,
      expired]

/-- A stream that is there refuses its entries, or else its groups. -/
theorem stream_block_again {entries restored : List (String × List (String × String))}
    (valid : (Value.stream entries groups).Valid libs) (something : entries ≠ [] ∨ groups ≠ [])
    (block : Block sent now key ttlSec (.stream entries groups) cmds)
    (restoredAs : List.Forall₂ (RestoredEntry sent) entries restored) {held : Held Score}
    (isStream : held.value = .stream restored groups) :
    replay libs now cmds (some held) = none := by
  obtain ⟨xadds, xgroups, expiring, rfl, xaddsSent, xgroupsSent, expireSent⟩ := stream_parts block
  obtain ⟨value, expiry⟩ := held
  cases isStream
  cases entries with
  | cons entry entries =>
    obtain ⟨cmd, rest, ⟨n, rfl⟩, -, rfl⟩ := List.forall₂_cons_left_iff.mp xaddsSent
    -- The last identifier is the first one, or a larger one.
    obtain ⟨last, isLast, notLess⟩ : ∃ last, restored.getLast? = some last ∧
        libs.idLess last.1 entry.1 = false := by
      obtain ⟨own, others, ownAs, othersAs, rfl⟩ := List.forall₂_cons_left_iff.mp restoredAs
      rcases List.eq_nil_or_concat others with rfl | ⟨front, last, rfl⟩
      · exact ⟨own, rfl, ownAs.1 ▸ libs.idLess_irrefl entry.1⟩
      · refine ⟨last, ?_, Bool.eq_false_iff.mpr fun less => ?_⟩
        · rw [List.concat_eq_append, ← List.cons_append, List.getLast?_concat]
        · obtain ⟨original, mem, originalAs⟩ :=
            forall₂_exists othersAs.flip (show last ∈ front.concat last by simp)
          have above := (List.pairwise_cons.mp valid.1).1 original mem
          rw [originalAs.1] at less
          have cyclic := libs.idLess_trans _ _ _ above less
          rw [libs.idLess_irrefl] at cyclic
          cases cyclic
    change replay libs now (.xadd key entry.1 (sent.fields n (sortedValues entry.2)) ::
      (rest ++ (xgroups ++ expiring))) _ = none
    rw [replay, Keyed.runKey, applyTo, asStream, Option.bind_some]
    dsimp only
    rw [isLast, Option.map_some, Option.getD_some, if_neg (by rw [notLess]; decide)]
    rfl
  | nil =>
    cases groups with
    | nil => exact absurd rfl (something.resolve_left (by simp))
    | cons group groups =>
      rw [List.forall₂_nil_left_iff.mp xaddsSent]
      obtain ⟨cmd, rest, ⟨n, rfl⟩, -, rfl⟩ := List.forall₂_cons_left_iff.mp xgroupsSent
      change replay libs now (.xgroupCreate key group.1 group.2 true :: (rest ++ expiring)) _ =
        none
      rw [replay, Keyed.runKey, applyTo, Bool.not_true, Bool.and_false, if_neg (by decide),
        asStream, Option.bind_some]
      dsimp only
      rw [if_pos (show group.1 ∈ (group :: groups).map Prod.fst from List.mem_cons_self)]
      rfl

end DbBackup.Engine.Redis.Dump
