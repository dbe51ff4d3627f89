import DbBackup.Engine.Redis.Replay

/-!
Owns the commands that the lines of a key stand for: `keyCommands`.

Contract: `reads_keyLines`. Each line that is dumped for a value Redis can hold is read as the
command that gives the key this value, or its time to live.
-/

set_option linter.all false

namespace DbBackup.Engine.Redis.Dump

open Lib.Duration Lib.GoString

variable {Score : Type} {libs : Libraries Score} {now : Nat}

/-! ### Values a database can hold -/

/-- A value of one of the six types: no empty collection, no member, field or group twice, and
entries in the order of their identifiers, each with a field. -/
def Value.Valid (libs : Libraries Score) : Value Score → Prop
  | .string _ => True
  | .list items => items ≠ []
  | .set members => members ≠ [] ∧ members.Nodup
  | .hash fields => fields ≠ [] ∧ (fields.map Prod.fst).Nodup
  | .zset members => members ≠ [] ∧ (members.map Prod.snd).Nodup
  | .stream entries groups =>
    entries.Pairwise (fun first second => libs.idLess first.1 second.1 = true) ∧
      (∀ entry ∈ entries, entry.2 ≠ []) ∧ (groups.map Prod.fst).Nodup
  | .other _ _ => False

variable {value : Value Score}

theorem Value.Valid.kept (valid : value.Valid libs) : value.Kept := by
  cases value with
  | string text => trivial
  | list items => exact valid
  | set members => exact valid.1
  | hash fields => exact valid.1
  | zset members => exact valid.1
  | stream entries groups => trivial
  | other type payload => exact valid.elim

/-- The value as a reply gives it. -/
def Value.reorder (order : Order) : Value Score → Value Score
  | .set members => .set (order.members members)
  | .hash fields => .hash (order.fields fields)
  | value => value

theorem keyLines_reorder (formats : Formats Score) (order : Order) (key : String) (ttlSec : Int)
    (value : Value Score) : keyLines formats order key ttlSec value =
      keyLines formats asReplied key ttlSec (value.reorder order) := by
  cases value <;> rfl

theorem Value.Valid.reorder (valid : value.Valid libs) (order : Order) :
    (value.reorder order).Valid libs := by
  cases value with
  | set members =>
    have perm := order.members_perm members
    exact ⟨fun none => valid.1 (List.nil_perm.mp (none ▸ perm)), perm.nodup_iff.mpr valid.2⟩
  | hash fields =>
    have perm := order.fields_perm fields
    exact ⟨fun none => valid.1 (List.nil_perm.mp (none ▸ perm)),
      (perm.map Prod.fst).nodup_iff.mpr valid.2⟩
  | string text => exact valid
  | list items => exact valid
  | zset members => exact valid
  | stream entries groups => exact valid
  | other type payload => exact valid

/-! ### Assigning in turn -/

theorem foldl_assign {α κ : Type} [DecidableEq κ] (key : α → κ) {news : List α}
    (unique : (news.map key).Nodup) (items : List α) :
    news.foldl (assign key) items =
      items.filter (fun item => key item ∉ news.map key) ++ news := by
  induction news generalizing items with
  | nil => simp
  | cons new news ih =>
    obtain ⟨notLater, others⟩ := List.nodup_cons.mp unique
    rw [List.foldl_cons, ih others, assign, List.filter_append,
      List.filter_filter, List.filter_cons_of_pos (by simpa using notLater), List.filter_nil,
      List.append_assoc, List.singleton_append]
    congr 1
    refine List.filter_congr fun item _ => ?_
    simp only [List.map_cons, List.mem_cons]
    by_cases same : key item = key new <;> simp [same]

theorem lastBindings_of_nodup {fields : List (String × String)}
    (unique : (fields.map Prod.fst).Nodup) : lastBindings fields = fields :=
  (foldl_assign Prod.fst unique []).trans (List.nil_append fields)

theorem nodup_foldl_assign {α κ : Type} [DecidableEq κ] (key : α → κ) (news : List α)
    {items : List α} (unique : (items.map key).Nodup) :
    ((news.foldl (assign key) items).map key).Nodup := by
  induction news generalizing items with
  | nil => exact unique
  | cons new news ih =>
    refine ih ?_
    rw [assign, List.map_append, List.nodup_append]
    refine ⟨unique.sublist (List.filter_sublist.map key), List.nodup_singleton _, ?_⟩
    intro k mem other isNew same
    obtain ⟨item, inFilter, rfl⟩ := List.mem_map.mp mem
    rw [List.map_singleton, List.mem_singleton] at isNew
    have different := (List.mem_filter.mp inFilter).2
    rw [decide_eq_true_eq] at different
    exact different (same.trans isNew)

variable (fields : List (String × String))

theorem nodup_lastBindings :
    ((lastBindings fields).map Prod.fst).Nodup := nodup_foldl_assign Prod.fst fields List.nodup_nil

theorem sortedValues_perm (values : List (String × String)) :
    (sortedValues values).Perm (lastBindings values) := List.mergeSort_perm ..

theorem nodup_sortedValues (values : List (String × String)) :
    ((sortedValues values).map Prod.fst).Nodup :=
  ((sortedValues_perm values).map Prod.fst).nodup_iff.mpr (nodup_lastBindings values)

theorem sortedValues_ne_nil {values : List (String × String)} (some : values ≠ []) :
    sortedValues values ≠ [] := by
  intro none
  have perm := sortedValues_perm values
  rw [none] at perm
  have noBinding := List.nil_perm.mp perm
  obtain ⟨front, last, shape⟩ := (List.eq_nil_or_concat values).resolve_left some
  rw [shape, List.concat_eq_append, lastBindings, List.foldl_append] at noBinding
  exact List.append_ne_nil_of_right_ne_nil _ (List.cons_ne_nil _ _) noBinding

/-! ### Commands -/

def expireCommands (now : Nat) (key : String) (ttlSec : Int) : List (Command Score) :=
  if 0 < ttlSec then [.expireAt key (unix (now + ttlSec * second))] else []

def keyCommands (now : Nat) (key : String) (ttlSec : Int) : Value Score → List (Command Score)
  | .string text =>
    [.set key text (if 0 < ttlSec then some (unix (now + ttlSec * second)) else none)]
  | .list items => .rpush key items :: expireCommands now key ttlSec
  | .set members => .sadd key members :: expireCommands now key ttlSec
  | .hash fields => .hset key fields :: expireCommands now key ttlSec
  | .zset members => .zadd key members :: expireCommands now key ttlSec
  | .stream entries groups =>
    entries.map (fun entry => .xadd key entry.1 (sortedValues entry.2)) ++
      groups.map (fun group => .xgroupCreate key group.1 group.2 true) ++
      expireCommands now key ttlSec
  | .other _ _ => []

theorem plain_of_all {text : String} (some : text ≠ "")
    (all : text.toList.all (fun c => c ≠ '"' && c ≠ '\\' && !isSpace c) = true) : Plain text where
  notEmpty := some
  chars := by
    intro c mem
    simpa [and_assoc] using List.all_eq_true.mp all c mem

/-- The verbs of the dump. -/
def verbs : List String := ["SET", "EXPIRE", "RPUSH", "SADD", "HSET", "ZADD", "XADD", "XGROUP"]

theorem verbs_spec : verbs.all (fun verb => verb ≠ "" && verb.toList.head? ≠ some '#' &&
    verb.toList.all (fun c => c ≠ '"' && c ≠ '\\' && !isSpace c) && toUpper verb = verb) = true := by
  decide

theorem reads_of_command {verb : String} (isVerb : verb ∈ verbs) {tokens : List Token}
    (plain : ∀ token ∈ tokens, token.Plain) {cmd : Command Score}
    (reads : command libs.client now verb (tokens.map Token.text) = .ok cmd) :
    Reads libs now ⟨verb, tokens⟩ cmd := by
  have spec := List.all_eq_true.mp verbs_spec verb isVerb
  simp only [Bool.and_eq_true, decide_eq_true_eq] at spec
  obtain ⟨⟨⟨some, notComment⟩, all⟩, upper⟩ := spec
  refine ⟨⟨plain_of_all some all, notComment, plain⟩, ?_⟩
  dsimp only
  rw [upper]
  exact reads

theorem wrap_seconds {n : Nat} (inRange : n ≤ 9223372036) :
    wrap64 ((n : Int) * second) = n * second := by
  apply wrap64_eq_self
  · unfold minDuration second
    omega
  · unfold maxDuration second
    omega

variable {ttlSec : Int}

theorem exists_nat (positive : 0 < ttlSec) (inRange : ttlSec ≤ 9223372036) :
    ∃ n : Nat, ttlSec = n ∧ n ≤ 9223372036 ∧ toString ttlSec = toString n := by
  obtain ⟨n, rfl⟩ := Int.eq_ofNat_of_zero_le (Int.le_of_lt positive)
  exact ⟨n, rfl, by omega, rfl⟩

variable (key : String)

theorem reads_expire (inRange : ttlSec ≤ 9223372036) :
    List.Forall₂ (Reads libs now) (writeKeyTTL key ttlSec) (expireCommands now key ttlSec) := by
  unfold writeKeyTTL expireCommands
  split
  next positive =>
    obtain ⟨n, rfl, small, text⟩ := exists_nat positive inRange
    refine .cons (reads_of_command (by decide) ?_ ?_) .nil
    · intro token mem
      simp only [List.mem_cons, List.not_mem_nil, or_false] at mem
      rcases mem with rfl | rfl
      · trivial
      · exact text ▸ plain_digits n
    · simp only [command, List.map_cons, List.map_nil, Token.text, text, String.reduceEq, if_false,
        if_true, atoi?_toString small, wrap_seconds small]
  next => exact .nil

theorem texts_quoted (texts : List String) : (texts.map Token.quoted).map Token.text = texts := by
  rw [List.map_map]
  exact List.map_id texts

theorem texts_pairs :
    pairs ((fields.flatMap pairTokens).map Token.text) = fields := by
  induction fields with
  | nil => rfl
  | cons field fields ih =>
    rw [List.flatMap_cons, List.map_append]
    change pairs (field.1 :: field.2 :: (fields.flatMap pairTokens).map Token.text) = _
    rw [pairs, ih]

theorem length_pairs :
    ((fields.flatMap pairTokens).map Token.text).length = 2 * fields.length := by
  induction fields with
  | nil => rfl
  | cons field fields ih =>
    rw [List.flatMap_cons, List.map_append, List.length_append, ih,
      List.length_cons]
    change 2 + 2 * fields.length = _
    omega

theorem plain_pairs :
    ∀ token ∈ fields.flatMap pairTokens, token.Plain := by
  intro token mem
  obtain ⟨field, -, inPair⟩ := List.mem_flatMap.mp mem
  simp only [pairTokens, List.mem_cons, List.not_mem_nil, or_false] at inPair
  rcases inPair with rfl | rfl
  · trivial
  · trivial

theorem plain_quoted (texts : List String) : ∀ token ∈ texts.map Token.quoted, token.Plain := by
  intro token mem
  obtain ⟨text, -, rfl⟩ := List.mem_map.mp mem
  trivial

theorem plain_cons_quoted (text : String) {tokens : List Token}
    (plain : ∀ token ∈ tokens, token.Plain) :
    ∀ token ∈ Token.quoted text :: tokens, token.Plain :=
  List.forall_mem_cons.mpr ⟨trivial, plain⟩

theorem reads_restore {verb key : String} (isVerb : verb ∈ verbs) {parts : List Token}
    (some : parts ≠ []) (plain : ∀ token ∈ parts, token.Plain)
    (inRange : ttlSec ≤ 9223372036) {cmd : Command Score}
    (reads : command libs.client now verb (key :: parts.map Token.text) = .ok cmd) :
    List.Forall₂ (Reads libs now) (writeRestore verb key parts ttlSec)
      (cmd :: expireCommands now key ttlSec) := by
  unfold writeRestore
  rw [if_neg some]
  exact .cons (reads_of_command isVerb (plain_cons_quoted key plain) reads)
    (reads_expire key inRange)

/-! ### One kind of value after the other -/

theorem reads_string (key text : String) (inRange : ttlSec ≤ 9223372036) :
    List.Forall₂ (Reads libs now) (writeWithTTL key text ttlSec)
      (keyCommands now key ttlSec (.string text)) := by
  unfold writeWithTTL keyCommands
  split
  next positive =>
    obtain ⟨n, rfl, small, text'⟩ := exists_nat positive inRange
    have upper : toUpper "EX" = "EX" := by decide
    have notZero : ¬ ((now : Int) + n * second = zeroTime) := by
      unfold zeroTime second
      omega
    refine .cons (reads_of_command (by decide) ?_ ?_) .nil
    · refine plain_cons_quoted key (plain_cons_quoted text (List.forall_mem_cons.mpr ⟨?_, ?_⟩))
      · exact plain_of_all (by decide) (by decide)
      · exact List.forall_mem_singleton.mpr (text' ▸ plain_digits n)
    · simp only [command, setCommand, splitSetOptions, List.map_cons, List.map_nil, Token.text,
        text', upper, true_or, if_true, atoi?_toString small, wrap_seconds small, Except.map,
        notZero, if_false]
  next =>
    refine .cons (reads_of_command (by decide) ?_ ?_) .nil
    · exact plain_cons_quoted key (plain_cons_quoted text (List.forall_mem_nil _))
    · simp only [command, setCommand, splitSetOptions, List.map_cons, List.map_nil, Token.text,
        if_true, Except.map]

theorem reads_list {items : List String} (some : items ≠ []) (inRange : ttlSec ≤ 9223372036) :
    List.Forall₂ (Reads libs now) (writeRestoreList key items ttlSec)
      (keyCommands now key ttlSec (.list items)) := by
  refine reads_restore (by decide) (mt List.map_eq_nil_iff.mp some) (plain_quoted items) inRange ?_
  have long : ¬ (key :: items).length < 2 := by
    have := List.length_pos_iff.mpr some
    rw [List.length_cons]
    omega
  rw [texts_quoted]
  simp only [command, String.reduceEq, if_false, if_true, long, List.headD_cons, List.tail_cons]

theorem reads_set {members : List String} (some : members ≠ []) (inRange : ttlSec ≤ 9223372036) :
    List.Forall₂ (Reads libs now) (writeRestoreSet key members ttlSec)
      (keyCommands now key ttlSec (.set members)) := by
  refine reads_restore (by decide) (mt List.map_eq_nil_iff.mp some) (plain_quoted members)
    inRange ?_
  have long : ¬ (key :: members).length < 2 := by
    have := List.length_pos_iff.mpr some
    rw [List.length_cons]
    omega
  rw [texts_quoted]
  simp only [command, String.reduceEq, if_false, if_true, long, List.headD_cons, List.tail_cons]

theorem reads_hash {fields : List (String × String)} (some : fields ≠ [])
    (unique : (fields.map Prod.fst).Nodup) (inRange : ttlSec ≤ 9223372036) :
    List.Forall₂ (Reads libs now) (writeRestoreHash key fields ttlSec)
      (keyCommands now key ttlSec (.hash fields)) := by
  refine reads_restore (by decide) (flatMap_ne_nil some fun _ => List.cons_ne_nil _ _) (plain_pairs fields) inRange ?_
  have arity : ¬ ((key :: (fields.flatMap pairTokens).map Token.text).length < 3 ∨
      (key :: (fields.flatMap pairTokens).map Token.text).length % 2 = 0) := by
    have := List.length_pos_iff.mpr some
    rw [List.length_cons, length_pairs]
    omega
  change command libs.client now "HSET" (key :: (fields.flatMap pairTokens).map Token.text) = _
  simp only [command, String.reduceEq, if_false, if_true, arity, List.headD_cons, List.tail_cons,
    texts_pairs, lastBindings_of_nodup unique]

def scoreTokens (libs : Libraries Score) (z : Score × String) : List Token :=
  [.word (libs.formatFloat z.1), .quoted z.2]

theorem zaddMembers_scores (members : List (Score × String)) :
    zaddMembers libs.client (pairs ((members.flatMap (scoreTokens libs)).map Token.text)) =
      .ok members := by
  induction members with
  | nil => rfl
  | cons z members ih =>
    rw [List.flatMap_cons, List.map_append]
    change zaddMembers libs.client ((libs.formatFloat z.1, z.2) ::
      pairs ((members.flatMap (scoreTokens libs)).map Token.text)) = _
    have parsed : libs.client.parseFloat (libs.formatFloat z.1) = some z.1 :=
      libs.parse_format z.1
    rw [zaddMembers, parsed]
    dsimp only
    rw [ih]
    rfl

theorem length_scores (members : List (Score × String)) :
    ((members.flatMap (scoreTokens libs)).map Token.text).length = 2 * members.length := by
  induction members with
  | nil => rfl
  | cons z members ih =>
    rw [List.flatMap_cons, List.map_append, List.length_append, ih,
      List.length_cons]
    change 2 + 2 * members.length = _
    omega

theorem reads_zset {members : List (Score × String)} (some : members ≠ [])
    (inRange : ttlSec ≤ 9223372036) :
    List.Forall₂ (Reads libs now) (writeRestoreZSet libs.toFormats key members ttlSec)
      (keyCommands now key ttlSec (.zset members)) := by
  have plain : ∀ token ∈ members.flatMap (scoreTokens libs), token.Plain := by
    intro token mem
    obtain ⟨z, -, inPair⟩ := List.mem_flatMap.mp mem
    simp only [scoreTokens, List.mem_cons, List.not_mem_nil, or_false] at inPair
    rcases inPair with rfl | rfl
    · exact libs.format_plain z.1
    · trivial
  refine reads_restore (by decide) (flatMap_ne_nil some fun _ => List.cons_ne_nil _ _) plain inRange ?_
  have arity : ¬ ((key :: (members.flatMap (scoreTokens libs)).map Token.text).length < 3 ∨
      (key :: (members.flatMap (scoreTokens libs)).map Token.text).length % 2 = 0) := by
    have := List.length_pos_iff.mpr some
    rw [List.length_cons, length_scores]
    omega
  change command libs.client now "ZADD"
    (key :: (members.flatMap (scoreTokens libs)).map Token.text) = _
  simp only [command, String.reduceEq, if_false, if_true, arity, List.headD_cons, List.tail_cons,
    zaddMembers_scores, Except.map]

theorem reads_xadd {entry : String × List (String × String)} (some : entry.2 ≠ []) :
    Reads libs now (xaddLine key entry) (.xadd key entry.1 (sortedValues entry.2)) := by
  have notEmpty := sortedValues_ne_nil some
  refine reads_of_command (by decide)
    (plain_cons_quoted key (plain_cons_quoted entry.1 (plain_pairs _))) ?_
  have arity : ¬ ((key :: entry.1 ::
      ((sortedValues entry.2).flatMap pairTokens).map Token.text).length < 4 ∨
      (key :: entry.1 ::
        ((sortedValues entry.2).flatMap pairTokens).map Token.text).length % 2 ≠ 0) := by
    have := List.length_pos_iff.mpr notEmpty
    rw [List.length_cons, List.length_cons, length_pairs]
    omega
  change command libs.client now "XADD"
    (key :: entry.1 :: ((sortedValues entry.2).flatMap pairTokens).map Token.text) = _
  simp only [command, String.reduceEq, if_false, if_true, arity, List.headD_cons, List.tail_cons,
    List.drop_succ_cons, List.drop_zero, texts_pairs,
    lastBindings_of_nodup (nodup_sortedValues entry.2)]

theorem reads_xgroup (group : String × String) :
    Reads libs now (xgroupLine key group) (.xgroupCreate key group.1 group.2 true) := by
  have create : equalFold "CREATE" "CREATE" = true := by decide
  have mkStream : equalFold "MKSTREAM" "MKSTREAM" = true := by decide
  refine reads_of_command (by decide) (List.forall_mem_cons.mpr ⟨?_, plain_cons_quoted key
    (plain_cons_quoted _ (plain_cons_quoted _ (List.forall_mem_singleton.mpr ?_)))⟩) ?_
  · exact plain_of_all (by decide) (by decide)
  · exact plain_of_all (by decide) (by decide)
  · simp only [command, xgroupCommand, List.map_cons, List.map_nil, Token.text, String.reduceEq,
      if_false, if_true, create, mkStream, Bool.true_eq_false]

/-- Each line of a key is read as a command on it. -/
theorem reads_keyLines (inRange : ttlSec ≤ 9223372036)  (valid : value.Valid libs) :
    List.Forall₂ (Reads libs now) (keyLines libs.toFormats asReplied key ttlSec value)
      (keyCommands now key ttlSec value) := by
  cases value with
  | string text => exact reads_string key text inRange
  | list items => exact reads_list key valid inRange
  | set members => exact reads_set key valid.1 inRange
  | hash fields => exact reads_hash key valid.1 valid.2 inRange
  | zset members => exact reads_zset key valid.1 inRange
  | stream entries groups =>
    refine List.rel_append (List.rel_append ?_ ?_) (reads_expire key inRange)
    · refine List.forall₂_map_left_iff.mpr (List.forall₂_map_right_iff.mpr
        (List.forall₂_same.mpr fun entry mem => ?_))
      exact reads_xadd key (valid.2.1 entry mem)
    · refine List.forall₂_map_left_iff.mpr (List.forall₂_map_right_iff.mpr
        (List.forall₂_same.mpr fun group _ => ?_))
      exact reads_xgroup key group
  | other type payload => exact valid.elim

end DbBackup.Engine.Redis.Dump
