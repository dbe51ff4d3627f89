import DbBackup.Engine.Redis.LineReading
import DbBackup.Lib.Keyed

/-!
Owns the restore of a dump into a database that holds values of all types: what the server does
with each command, and `Restore` and `restoreLine` of `internal/database/engine/redis/ops.go` over
it, with the commands a line stands for taken from `command`.

The client sends the pairs of a hash or of a stream entry from a map, in any order (`sent`, by the
number of the line). Contract: `restoreAll_ok_iff`. A restore succeeds exactly when every line
fits into the scanner's buffer and every command succeeds.
-/

set_option linter.all false

namespace DbBackup.Engine.Redis.Dump

open Lib Lib.GoString Lib.LineScan

variable {Score : Type}

/-! ### The server -/

/-- A key's value, and the millisecond since the epoch at which it expires. -/
structure Held (Score : Type) where
  value : Value Score
  expireAt : Option Int

abbrev Data (Score : Type) := String → Option (Held Score)

/-- What the round trip relies on: the number formats and base64, and the server's order of the
identifiers of stream entries. -/
structure Libraries (Score : Type) extends Formats Score where
  parseFloat : String → Option Score
  decodeBlob : String → Option String
  restoreBlob : String → Option (Value Score)
  idLess : String → String → Bool
  parse_format : ∀ score, parseFloat (formatFloat score) = some score
  format_plain : ∀ score, Plain (formatFloat score)
  encode_plain : ∀ blob, Plain (encodeBlob blob)
  idLess_irrefl : ∀ id, idLess id id = false
  idLess_trans : ∀ a b c, idLess a b = true → idLess b c = true → idLess a c = true

/-- What was there with the same key makes place. -/
def assign {α κ : Type} [DecidableEq κ] (key : α → κ) (items : List α) (new : α) : List α :=
  items.filter (fun item => key item ≠ key new) ++ [new]

/-- A value of a new key, or in the place of an old one whose expiry stays. -/
def keep (held : Option (Held Score)) (value : Value Score) : Option (Held Score) :=
  some ⟨value, held.bind Held.expireAt⟩

def asHash : Option (Held Score) → Option (List (String × String))
  | none => some []
  | some ⟨.hash fields, _⟩ => some fields
  | _ => none

def asList : Option (Held Score) → Option (List String)
  | none => some []
  | some ⟨.list items, _⟩ => some items
  | _ => none

def asSet : Option (Held Score) → Option (List String)
  | none => some []
  | some ⟨.set members, _⟩ => some members
  | _ => none

def asZSet : Option (Held Score) → Option (List (Score × String))
  | none => some []
  | some ⟨.zset members, _⟩ => some members
  | _ => none

def asStream : Option (Held Score) →
    Option (List (String × List (String × String)) × List (String × String))
  | none => some ([], [])
  | some ⟨.stream entries groups, _⟩ => some (entries, groups)
  | _ => none

def expire (now : Nat) (moment : Int) : Option (Held Score) → Option (Held Score)
  | none => none
  | some held => if moment ≤ unixMilli now then none else some { held with expireAt := some moment }

def commandKey : Command Score → String
  | .set key _ _ => key
  | .hset key _ => key
  | .rpush key _ => key
  | .sadd key _ => key
  | .zadd key _ => key
  | .xadd key _ _ => key
  | .restore key _ => key
  | .xgroupCreate key _ _ _ => key
  | .expireAt key _ => key
  | .pexpireAt key _ => key

/-- What a command makes of what its key holds; the outer none is an error. -/
def applyTo (libs : Libraries Score) (now : Nat) :
    Command Score → Option (Held Score) → Option (Option (Held Score))
  | .set _ value none, _ => some (some ⟨.string value, none⟩)
  | .set _ value (some exat), _ =>
    if exat ≤ 0 then none
    else some (expire now (exat * 1000) (some ⟨.string value, none⟩))
  | .hset _ fields, held =>
    (asHash held).map fun old => keep held (.hash (fields.foldl (assign Prod.fst) old))
  | .rpush _ values, held => (asList held).map fun old => keep held (.list (old ++ values))
  | .sadd _ members, held =>
    (asSet held).map fun old => keep held (.set (members.foldl (assign id) old))
  | .zadd _ members, held =>
    (asZSet held).map fun old => keep held (.zset (members.foldl (assign Prod.snd) old))
  | .xadd _ id values, held =>
    (asStream held).bind fun (entries, groups) =>
      if (entries.getLast?.map fun last => libs.idLess last.1 id).getD true then
        some (keep held (.stream (entries ++ [(id, values)]) groups))
      else none
  | .restore _ payload, _ => (libs.restoreBlob payload).map fun value => some ⟨value, none⟩
  | .xgroupCreate _ group start mkStream, held =>
    if held.isNone && !mkStream then none
    else
      (asStream held).bind fun (entries, groups) =>
        if group ∈ groups.map Prod.fst then none
        else some (keep held (.stream entries (groups ++ [(group, start)])))
  | .expireAt _ second, held => some (expire now (second * 1000) held)
  | .pexpireAt _ millisecond, held => some (expire now millisecond held)

/-! ### The restore -/

/-- The client of `restoreLine`, up to the connection. -/
def Libraries.client (libs : Libraries Score) : Client Score :=
  ⟨libs.parseFloat, libs.decodeBlob, fun _ _ => none⟩

/-- The order in which a map is sent. -/
structure Sent where
  fields : Nat → List (String × String) → List (String × String)
  perm : ∀ n items, (fields n items).Perm items

def send (sent : Sent) (n : Nat) : Command Score → Command Score
  | .hset key fields => .hset key (sent.fields n fields)
  | .xadd key id values => .xadd key id (sent.fields n values)
  | other => other

structure Restoring (Score : Type) where
  data : Data Score := fun _ => none
  restored : Nat := 0
  skipped : Nat := 0
  skippedLines : List String := []

/-- `restoreLine` for the `n`-th command; none is an error. -/
def restoreParts (libs : Libraries Score) (now : Nat) (sent : Sent) (n : Nat) (data : Data Score) :
    List String → Option (Data Score)
  | [] => none
  | verb :: args =>
    match command libs.client now (toUpper verb) (args.map unquoteRedisArg) with
    | .error _ => none
    | .ok cmd => Keyed.exec commandKey (applyTo libs now) data (send sent n cmd)

def restoreOne (libs : Libraries Score) (now : Nat) (sent : Sent) (progress : Restoring Score)
    (raw : String) : Restoring Score :=
  let line := trimSpace (trimSuffix raw "\r")
  if line = "" ∨ hasPrefix line "#" then progress
  else
    let parts := splitRedisArgs line
    if parts = [] then progress
    else
      match restoreParts libs now sent (progress.restored + progress.skipped) progress.data parts
        with
      | some data => { progress with data, restored := progress.restored + 1 }
      | none =>
        { progress with
          skipped := progress.skipped + 1
          skippedLines :=
            if progress.skippedLines.length < 5 then progress.skippedLines ++ [line]
            else progress.skippedLines }

def restoreAll (libs : Libraries Score) (now : Nat) (sent : Sent) (progress : Restoring Score) :
    List String → Restoring Score × Option RestoreError
  | [] =>
    (progress, if 0 < progress.skipped then
      some (.incomplete progress.skipped progress.skippedLines) else none)
  | line :: rest =>
    if Fits line then restoreAll libs now sent (restoreOne libs now sent progress line) rest
    else (progress, some .readDump)

/-- `Restore` into an empty database. -/
def restoreText (libs : Libraries Score) (now : Nat) (sent : Sent) (dump : String) :
    Restoring Score × Option RestoreError :=
  restoreAll libs now sent {} (textLines dump)

/-! ### Lines that stand for commands -/

/-- The line is one the restore reads as this command. -/
structure Reads (libs : Libraries Score) (now : Nat) (line : Line) (cmd : Command Score) :
    Prop where
  readable : line.Readable
  command : command libs.client now (toUpper line.verb) (line.tokens.map Token.text) = .ok cmd

variable {libs : Libraries Score} {now : Nat} {sent : Sent}

theorem Reads.restoreOne {line : Line} {cmd : Command Score} (reads : Reads libs now line cmd)
    (progress : Restoring Score) :
    restoreOne libs now sent progress line.render =
      match Keyed.exec commandKey (applyTo libs now) progress.data
        (send sent (progress.restored + progress.skipped) cmd) with
      | some data => { progress with data, restored := progress.restored + 1 }
      | none =>
        { progress with
          skipped := progress.skipped + 1
          skippedLines :=
            if progress.skippedLines.length < 5 then progress.skippedLines ++ [line.render]
            else progress.skippedLines } := by
  have firm := reads.readable.firm
  unfold Dump.restoreOne
  rw [trimmed_of_firm firm]
  dsimp only
  rw [if_neg (by
    rintro (empty | comment)
    · exact firm.ne_empty empty
    · rw [reads.readable.notPrefix] at comment
      cases comment), reads.readable.splitRedisArgs_render, if_neg (List.cons_ne_nil _ _)]
  unfold restoreParts
  dsimp only
  rw [reads.readable.unquote, reads.command]
  rfl

/-- The commands as they are sent, the first one as the `n`-th. -/
def sendAll (sent : Sent) : Nat → List (Command Score) → List (Command Score)
  | _, [] => []
  | n, cmd :: rest => send sent n cmd :: sendAll sent (n + 1) rest

/-- An error at one line leaves the restore with an error. -/
theorem restoreAll_of_skipped (lines : List String) {progress : Restoring Score}
    (skipped : 0 < progress.skipped) :
    (restoreAll libs now sent progress lines).2 ≠ none := by
  induction lines generalizing progress with
  | nil =>
    rw [restoreAll, if_pos skipped]
    nofun
  | cons line rest ih =>
    rw [restoreAll]
    split
    · refine ih ?_
      unfold Dump.restoreOne
      dsimp only
      split
      · exact skipped
      · split
        · exact skipped
        · split
          · exact skipped
          · exact Nat.succ_pos _
    · nofun

/-- A restore of lines that stand for commands succeeds exactly when all lines fit and all commands
succeed. -/
theorem restoreAll_ok_iff {lines : List Line} {cmds : List (Command Score)}
    (reads : List.Forall₂ (Reads libs now) lines cmds) {progress : Restoring Score}
    (noneSkipped : progress.skipped = 0) {data : Data Score} :
    (∃ after, restoreAll libs now sent progress (lines.map Line.render) = (after, none) ∧
        after.data = data) ↔
      (∀ line ∈ lines, Fits line.render) ∧
        Keyed.runAll commandKey (applyTo libs now) (sendAll sent progress.restored cmds)
          progress.data = some data := by
  induction reads generalizing progress with
  | nil =>
    rw [List.map_nil, restoreAll, noneSkipped, if_neg (Nat.lt_irrefl 0), sendAll, Keyed.runAll,
      Option.some.injEq]
    constructor
    · rintro ⟨after, same, rfl⟩
      cases same
      exact ⟨List.forall_mem_nil _, rfl⟩
    · rintro ⟨-, rfl⟩
      exact ⟨progress, rfl, rfl⟩
  | @cons line cmd lines cmds read _ ih =>
    rw [List.map_cons, restoreAll, List.forall_mem_cons, sendAll, Keyed.runAll]
    by_cases fits : Fits line.render
    · rw [if_pos fits, read.restoreOne, noneSkipped, Nat.add_zero]
      cases result : Keyed.exec commandKey (applyTo libs now) progress.data
          (send sent progress.restored cmd) with
      | some next =>
        dsimp only
        rw [Option.bind_some]
        refine (ih rfl).trans ?_
        rw [and_iff_right fits]
      | none =>
        constructor
        · rintro ⟨after, same, -⟩
          exact absurd (congrArg Prod.snd same) (restoreAll_of_skipped _ (Nat.succ_pos _))
        · rintro ⟨-, failed⟩
          cases failed
    · rw [if_neg fits]
      constructor
      · rintro ⟨after, same, -⟩
        cases same
      · rintro ⟨⟨itFits, -⟩, -⟩
        exact absurd itFits fits

end DbBackup.Engine.Redis.Dump
