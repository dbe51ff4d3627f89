import DbBackup.Engine.Redis.Restore
import Mathlib.Data.List.Sort

/-!
Owns the dump of a Redis database: `Dump`, `dumpKey`, `xRangeAll` and the `writeRestore` functions
of `internal/database/engine/redis/redis.go`.

A key is dumped by several commands, and another client or its time to live can remove it between
any two of them: `View` says what each of a key's commands finds. Replies and maps without an order
come in any (`Order`). The client reports a time to live in whole seconds, so that the lines for
less than one are not reached.

Does not own: the banner, the filter of keys, and how a score or a payload is written
(`Formats`).
-/

set_option linter.all false

namespace DbBackup.Engine.Redis.Dump

/-! ### Values -/

/-- A stream has its entries, each with the pairs in the order they were given, and the names and
positions of its consumer groups. -/
inductive Value (Score : Type) where
  | string (text : String)
  | list (items : List String)
  | set (members : List String)
  | hash (fields : List (String × String))
  | zset (members : List (Score × String))
  | stream (entries : List (String × List (String × String))) (groups : List (String × String))
  /-- A type of a module, with its `DUMP`. -/
  | other (type payload : String)

/-- The reply to `TYPE`. -/
inductive TypeReply where
  | string
  | list
  | set
  | hash
  | zset
  | stream
  | other (type : String)
  | missing
deriving DecidableEq

def TypeReply.text : TypeReply → String
  | .string => "string"
  | .list => "list"
  | .set => "set"
  | .hash => "hash"
  | .zset => "zset"
  | .stream => "stream"
  | .other type => type
  | .missing => "none"

variable {Score : Type}

/-- The value that the `n`-th command on a key finds; none when it has vanished. -/
abbrev View (Score : Type) := Nat → Option (Value Score)

def typeReply : Option (Value Score) → TypeReply
  | none => .missing
  | some (.string _) => .string
  | some (.list _) => .list
  | some (.set _) => .set
  | some (.hash _) => .hash
  | some (.zset _) => .zset
  | some (.stream _ _) => .stream
  | some (.other type _) => .other type

/-! ### Lines -/

inductive Token where
  | quoted (text : String)
  | word (text : String)
deriving DecidableEq

def Token.text : Token → String
  | .quoted text => text
  | .word text => text

def Token.render : Token → String
  | .quoted text => quoteRedis text
  | .word text => text

structure Line where
  verb : String
  tokens : List Token
deriving DecidableEq

def Line.render (line : Line) : String :=
  " ".intercalate (line.verb :: line.tokens.map Token.render)

structure Formats (Score : Type) where
  formatFloat : Score → String
  encodeBlob : String → String

def writeKeyTTL (key : String) (ttlSec : Int) : List Line :=
  if 0 < ttlSec then [⟨"EXPIRE", [.quoted key, .word (toString ttlSec)]⟩] else []

def writeWithTTL (key val : String) (ttlSec : Int) : List Line :=
  if 0 < ttlSec then
    [⟨"SET", [.quoted key, .quoted val, .word "EX", .word (toString ttlSec)]⟩]
  else [⟨"SET", [.quoted key, .quoted val]⟩]

/-- `writeRestoreList` and its siblings: nothing is written for no parts. -/
def writeRestore (verb key : String) (parts : List Token) (ttlSec : Int) : List Line :=
  if parts = [] then [] else ⟨verb, .quoted key :: parts⟩ :: writeKeyTTL key ttlSec

def writeRestoreList (key : String) (vals : List String) : Int → List Line :=
  writeRestore "RPUSH" key (vals.map .quoted)

def writeRestoreSet (key : String) (vals : List String) : Int → List Line :=
  writeRestore "SADD" key (vals.map .quoted)

def pairTokens (entry : String × String) : List Token := [.quoted entry.1, .quoted entry.2]

def writeRestoreHash (key : String) (entries : List (String × String)) : Int → List Line :=
  writeRestore "HSET" key (entries.flatMap pairTokens)

def writeRestoreZSet (formats : Formats Score) (key : String) (entries : List (Score × String)) :
    Int → List Line :=
  writeRestore "ZADD" key
    (entries.flatMap fun z => [.word (formats.formatFloat z.1), .quoted z.2])

/-- The pairs of an entry as the client gives them, a map, in the order of its sorted keys. -/
def sortedValues (values : List (String × String)) : List (String × String) :=
  (lastBindings values).mergeSort fun first second => decide (first.1 ≤ second.1)

def xaddLine (key : String) (message : String × List (String × String)) : Line :=
  ⟨"XADD", .quoted key :: .quoted message.1 :: (sortedValues message.2).flatMap pairTokens⟩

def xgroupLine (key : String) (group : String × String) : Line :=
  ⟨"XGROUP", [.word "CREATE", .quoted key, .quoted group.1, .quoted group.2, .word "MKSTREAM"]⟩

def writeRestoreStream (key : String) (msgs : List (String × List (String × String)))
    (groups : List (String × String)) (ttlSec : Int) : List Line :=
  msgs.map (xaddLine key) ++ groups.map (xgroupLine key) ++ writeKeyTTL key ttlSec

/-! ### One key -/

inductive DumpError where
  | getNil
  | dumpFallbackNil
  | xinfoNoSuchKey
  | wrongType
deriving DecidableEq

/-- The order in which a reply, or a map made of it, gives what has none. -/
structure Order where
  members : List String → List String
  fields : List (String × String) → List (String × String)
  members_perm : ∀ items, (members items).Perm items
  fields_perm : ∀ items, (fields items).Perm items

def asReplied : Order := ⟨id, id, fun _ => .refl _, fun _ => .refl _⟩

def get : Option (Value Score) → Except DumpError String
  | some (.string val) => .ok val
  | none => .error .getNil
  | some _ => .error .wrongType

def lRange : Option (Value Score) → Except DumpError (List String)
  | some (.list vals) => .ok vals
  | none => .ok []
  | some _ => .error .wrongType

def sMembers (order : Order) : Option (Value Score) → Except DumpError (List String)
  | some (.set vals) => .ok (order.members vals)
  | none => .ok []
  | some _ => .error .wrongType

def hGetAll (order : Order) : Option (Value Score) → Except DumpError (List (String × String))
  | some (.hash vals) => .ok (order.fields vals)
  | none => .ok []
  | some _ => .error .wrongType

def zRangeWithScores : Option (Value Score) → Except DumpError (List (Score × String))
  | some (.zset vals) => .ok vals
  | none => .ok []
  | some _ => .error .wrongType

def xEntries : Option (Value Score) → List (String × List (String × String))
  | some (.stream entries _) => entries
  | _ => []

def xInfoGroups : Option (Value Score) → Except DumpError (List (String × String))
  | some (.stream _ groups) => .ok groups
  | none => .error .xinfoNoSuchKey
  | some _ => .error .wrongType

def dumpBlob : Option (Value Score) → Except DumpError String
  | some (.other _ payload) => .ok payload
  | none => .error .dumpFallbackNil
  | some _ => .error .wrongType

/-- The size of a page of `XRANGE`. -/
def xPage : Nat := 1000

/-- The entries after the first ones, read from the given command on, and the command after the
last one. `done` entries were read by the pages before. -/
def xRangeAll (view : View Score) (done n : Nat) :
    Nat → List (String × List (String × String)) × Nat
  | 0 => ([], n)
  | fuel + 1 =>
    let msgs := ((xEntries (view n)).drop done).take xPage
    if msgs = [] then ([], n + 1)
    else if msgs.length < xPage then (msgs, n + 1)
    else
      let rest := xRangeAll view (done + xPage) (n + 1) fuel
      (msgs ++ rest.1, rest.2)

/-- More pages than the entries of the first one's stream need. -/
def xFuel (view : View Score) (n : Nat) : Nat := (xEntries (view n)).length + 1

/-- `dumpKey`. Its commands are numbered: `TTL` is 0, `TYPE` is 1, and the reads follow. -/
def dumpKey (formats : Formats Score) (order : Order) (view : View Score) (ttl : Int)
    (key : String) : Except DumpError (List Line) :=
  let ttlSec := if (view 0).isNone ∨ ttl < 0 then 0 else ttl
  match typeReply (view 1) with
  | .string => (get (view 2)).map fun val => writeWithTTL key val ttlSec
  | .list => (lRange (view 2)).map fun vals => writeRestoreList key vals ttlSec
  | .set => (sMembers order (view 2)).map fun vals => writeRestoreSet key vals ttlSec
  | .hash => (hGetAll order (view 2)).map fun vals => writeRestoreHash key vals ttlSec
  | .zset => (zRangeWithScores (view 2)).map fun vals => writeRestoreZSet formats key vals ttlSec
  | .stream =>
    let msgs := xRangeAll view 0 2 (xFuel view 2)
    (xInfoGroups (view msgs.2)).map fun groups => writeRestoreStream key msgs.1 groups ttlSec
  | reply =>
    if reply.text = "" then .ok []
    else
      (dumpBlob (view 2)).map fun blob =>
        ⟨"RESTOREBLOB", [.quoted key, .word (formats.encodeBlob blob)]⟩ :: writeKeyTTL key ttlSec

/-! ### The whole dump -/

/-- A key that `SCAN` returned, with what its commands find and the time to live it is reported
with. -/
structure Scanned (Score : Type) where
  key : String
  view : View Score
  ttl : Int
  order : Order

structure Output where
  lines : List Line := []
  skippedKeys : List String := []

def dumpStep (formats : Formats Score) (output : Output) (scanned : Scanned Score) : Output :=
  match dumpKey formats scanned.order scanned.view scanned.ttl scanned.key with
  | .ok lines => { output with lines := output.lines ++ lines }
  | .error _ => { output with skippedKeys := output.skippedKeys ++ [scanned.key] }

/-- The keys of all pages, in turn. -/
def dump (formats : Formats Score) (scanned : List (Scanned Score)) : Output :=
  scanned.foldl (dumpStep formats) {}

/-- `redis: backup incomplete - %d of %d keys skipped (%s)`. -/
structure Incomplete where
  skipped : Nat
  scanned : Nat
  keys : String
deriving DecidableEq

def dumpError (formats : Formats Score) (scanned : List (Scanned Score)) : Option Incomplete :=
  let skippedKeys := (dump formats scanned).skippedKeys
  if skippedKeys.length > 0 then
    some ⟨skippedKeys.length, scanned.length, ", ".intercalate skippedKeys⟩
  else none

variable (formats : Formats Score)

theorem dump_foldl (scanned : List (Scanned Score)) (output : Output) :
    scanned.foldl (dumpStep formats) output =
      ⟨output.lines ++ (dump formats scanned).lines,
        output.skippedKeys ++ (dump formats scanned).skippedKeys⟩ := by
  induction scanned generalizing output with
  | nil => simp [dump]
  | cons first rest ih =>
    have whole : dump formats (first :: rest) =
        rest.foldl (dumpStep formats) (dumpStep formats {} first) := rfl
    rw [List.foldl_cons, ih, whole, ih]
    unfold dumpStep
    split <;> simp

theorem dump_cons_ok {first : Scanned Score} {lines : List Line}
    (ok : dumpKey formats first.order first.view first.ttl first.key = .ok lines)
    (rest : List (Scanned Score)) :
    dump formats (first :: rest) =
      ⟨lines ++ (dump formats rest).lines, (dump formats rest).skippedKeys⟩ := by
  rw [dump, List.foldl_cons, dump_foldl]
  simp only [dumpStep, ok, List.nil_append]

theorem dump_cons_error {first : Scanned Score} {err : DumpError}
    (failed : dumpKey formats first.order first.view first.ttl first.key = .error err)
    (rest : List (Scanned Score)) :
    dump formats (first :: rest) =
      ⟨(dump formats rest).lines, first.key :: (dump formats rest).skippedKeys⟩ := by
  rw [dump, List.foldl_cons, dump_foldl]
  simp only [dumpStep, failed, List.nil_append, List.singleton_append]

theorem skippedKeys_eq_nil_iff (scanned : List (Scanned Score)) :
    (dump formats scanned).skippedKeys = [] ↔ ∀ one ∈ scanned,
      ∃ lines, dumpKey formats one.order one.view one.ttl one.key = .ok lines := by
  induction scanned with
  | nil => exact ⟨fun _ => nofun, fun _ => rfl⟩
  | cons first rest ih =>
    cases result : dumpKey formats first.order first.view first.ttl first.key with
    | ok lines =>
      rw [dump_cons_ok formats result, List.forall_mem_cons]
      refine ih.trans ?_
      exact ⟨fun others => ⟨⟨lines, result⟩, others⟩, fun all => all.2⟩
    | error err =>
      rw [dump_cons_error formats result]
      refine ⟨nofun, fun all => ?_⟩
      obtain ⟨lines, ok⟩ := all first List.mem_cons_self
      rw [result] at ok
      cases ok

/-- The dump succeeds exactly when every key was dumped. -/
theorem dumpError_eq_none_iff (scanned : List (Scanned Score)) :
    dumpError formats scanned = none ↔ ∀ one ∈ scanned,
      ∃ lines, dumpKey formats one.order one.view one.ttl one.key = .ok lines := by
  rw [← skippedKeys_eq_nil_iff]
  unfold dumpError
  simp

/-- What was dumped for a key stands in the output. -/
theorem infix_dump {scanned : List (Scanned Score)}
    {one : Scanned Score} (mem : one ∈ scanned) {lines : List Line}
    (ok : dumpKey formats one.order one.view one.ttl one.key = .ok lines) :
    lines <:+: (dump formats scanned).lines := by
  induction scanned with
  | nil => cases mem
  | cons first rest ih =>
    rcases List.mem_cons.mp mem with rfl | later
    · rw [dump_cons_ok formats ok]
      exact (List.prefix_append ..).isInfix
    · have inRest := ih later
      cases result : dumpKey formats first.order first.view first.ttl first.key with
      | ok own =>
        rw [dump_cons_ok formats result]
        exact inRest.trans (List.suffix_append ..).isInfix
      | error err =>
        rw [dump_cons_error formats result]
        exact inRest

end DbBackup.Engine.Redis.Dump
