import DbBackup.Lib.LineScan
import DbBackup.Lib.Scan

/-!
Owns the restore of a Redis dump: reading its lines, splitting a line into
arguments, and the commands the lines stand for.

Contract: an argument that was quoted reads back as it was (`unquoteRedisArg_quoteRedis`),
and a line of quoted arguments splits into them (`splitArgs_quoted`).

Does not own: the connection. The characters of a text stand for the bytes of
a Go string. Parsing floating-point numbers and base64 is given, as is what
the server does with the commands other than `SET`.
-/

set_option linter.all false

namespace DbBackup.Engine.Redis

open Lib.Duration Lib.GoString Lib.LineScan Lib.Scan

/-- What a key holds. Scores are the texts the server replies with; fields and
members stand in the order in which they are replied. -/
inductive Value where
  | string (text : String)
  | list (items : List String)
  | set (members : List String)
  | hash (fields : List (String × String))
  | zset (members : List (String × String))
  | stream (entries : List (String × List (String × String)))
  | other (type payload : String)
deriving DecidableEq

/-- The keys of a database the restore writes to, each with the second since
the epoch at which it expires. -/
abbrev Keyspace := String → Option (Value × Option Int)

def Keyspace.empty : Keyspace := fun _ => none

def Keyspace.put (keyspace : Keyspace) (key : String) (entry : Option (Value × Option Int)) :
    Keyspace := fun other => if other = key then entry else keyspace other

/-! ### Arguments -/

def quoteRedis (text : String) : String :=
  "\"" ++ replaceAll (replaceAll (replaceAll (replaceAll text "\\" "\\\\") "\"" "\\\"")
    "\n" "\\n") "\r" "\\r" ++ "\""

/-- The loop of `SplitRedisArgs`; `cur` is the argument being read. -/
def splitArgs : Bool → List Char → List Char → List (List Char)
  | _, cur, [] => if cur = [] then [] else [cur]
  | true, cur, '\\' :: c :: rest => splitArgs true (cur ++ ['\\', c]) rest
  | inQuote, cur, c :: rest =>
    if c = '"' then splitArgs (!inQuote) (cur ++ [c]) rest
    else if c = ' ' ∧ inQuote = false then
      (if cur = [] then [] else [cur]) ++ splitArgs false [] rest
    else splitArgs inQuote (cur ++ [c]) rest

def splitRedisArgs (line : String) : List String :=
  (splitArgs false [] line.toList).map String.ofList

/-- What a backslash and the character after it stand for. -/
def escaped (c : Char) : List Char :=
  if c = '\\' then ['\\'] else if c = '"' then ['"'] else if c = 'n' then ['\n']
  else if c = 'r' then ['\r'] else ['\\', c]

def unescapeArg : List Char → List Char
  | [] => []
  | '\\' :: c :: rest => escaped c ++ unescapeArg rest
  | c :: rest => c :: unescapeArg rest

def unquoteRedisArg (arg : String) : String :=
  let chars := arg.toList
  if 2 ≤ chars.length ∧ chars.head? = some '"' ∧ chars.getLast? = some '"' then
    String.ofList (unescapeArg (chars.tail.dropLast))
  else String.ofList (unescapeArg chars)

/-! ### Commands -/

inductive Command (Score : Type) where
  | set (key value : String) (exat : Option Int)
  | hset (key : String) (fields : List (String × String))
  | rpush (key : String) (values : List String)
  | sadd (key : String) (members : List String)
  | zadd (key : String) (members : List (Score × String))
  | xadd (stream id : String) (values : List (String × String))
  | restore (key payload : String)
  | xgroupCreate (stream group start : String) (mkStream : Bool)
  | expireAt (key : String) (second : Int)
  | pexpireAt (key : String) (millisecond : Int)

inductive LineError where
  | message (text : String)
  | badScore (arg : String)
  | badBlob (arg : String)
  | xgroupOptions (args : List String)
  | badSeconds (arg : String)
  | badMillis (arg : String)
  | optionWithoutValue (option : String)
  | badOptionValue (arg : String)
  | unsupportedOption (option : String)
  | unsupportedCommand (verb : String)
deriving DecidableEq

/-- What the restore relies on beyond the language's own strings. -/
structure Client (Score : Type) where
  parseFloat : String → Option Score
  decodeBlob : String → Option String
  /-- The server's answer to a command that is not `SET`; none is an error. -/
  server : Command Score → Keyspace → Option Keyspace

def second : Int := 1000000000

def millisecond : Int := 1000000

/-- `time.Time{}` in nanoseconds since the epoch. -/
def zeroTime : Int := -62135596800 * second

def unix (t : Int) : Int := t / second

def unixMilli (t : Int) : Int := t / millisecond

/-- `splitSetOptions`: the value, and when the key expires in nanoseconds since
the epoch. Every option returns, so only the first one is read. -/
def splitSetOptions (now : Nat) : List String → Except LineError (String × Int)
  | [] => .error (.message "SET needs a value")
  | value :: rest =>
    match rest with
    | [] => .ok (value, zeroTime)
    | option :: more =>
      let unit := toUpper option
      if unit = "EX" ∨ unit = "PX" ∨ unit = "EXAT" ∨ unit = "PXAT" then
        match more with
        | [] => .error (.optionWithoutValue option)
        | arg :: _ =>
          match atoi? arg with
          | none => .error (.badOptionValue arg)
          | some n =>
            if unit = "EX" then .ok (value, now + wrap64 (n * second))
            else if unit = "PX" then .ok (value, now + wrap64 (n * millisecond))
            else if unit = "EXAT" then .ok (value, n * second)
            else .ok (value, n * millisecond)
      else .error (.unsupportedOption option)

/-- Field and value in turn; a last field without a value is not read. -/
def pairs : List String → List (String × String)
  | field :: value :: rest => (field, value) :: pairs rest
  | _ => []

/-- The pairs as a map: the last value of a field counts. -/
def lastBindings (fields : List (String × String)) : List (String × String) :=
  fields.foldl (fun known field => known.filter (·.1 ≠ field.1) ++ [field]) []

def zaddMembers {Score : Type} (client : Client Score) :
    List (String × String) → Except LineError (List (Score × String))
  | [] => .ok []
  | (score, member) :: rest =>
    match client.parseFloat score with
    | none => .error (.badScore score)
    | some value => (zaddMembers client rest).map ((value, member) :: ·)

def setCommand {Score : Type} (now : Nat) : List String → Except LineError (Command Score)
  | key :: value :: options =>
    (splitSetOptions now (value :: options)).map fun (value, expireAt) =>
      if expireAt = zeroTime then .set key value none
      else .set key value (some (unix expireAt))
  | _ => .error (.message "SET needs key and value")

def xgroupCommand {Score : Type} : List String → Except LineError (Command Score)
  | verb :: stream :: group :: start :: more =>
    if equalFold verb "CREATE" = false then
      .error (.message "XGROUP only supports CREATE key group id [MKSTREAM]")
    else match more with
      | [] => .ok (.xgroupCreate stream group start false)
      | [option] =>
        if equalFold option "MKSTREAM" then .ok (.xgroupCreate stream group start true)
        else .error (.xgroupOptions more)
      | _ => .error (.xgroupOptions more)
  | _ => .error (.message "XGROUP only supports CREATE key group id [MKSTREAM]")

/-- `restoreLine` up to the call of the client: the command a line stands for. -/
def command {Score : Type} (client : Client Score) (now : Nat) (verb : String)
    (args : List String) : Except LineError (Command Score) :=
  if verb = "SET" then setCommand now args
  else if verb = "HSET" then
    if args.length < 3 ∨ args.length % 2 = 0 then
      .error (.message "HSET needs key and field/value pairs")
    else .ok (.hset (args.headD "") (lastBindings (pairs args.tail)))
  else if verb = "RPUSH" then
    if args.length < 2 then .error (.message "RPUSH needs key and values")
    else .ok (.rpush (args.headD "") args.tail)
  else if verb = "SADD" then
    if args.length < 2 then .error (.message "SADD needs key and members")
    else .ok (.sadd (args.headD "") args.tail)
  else if verb = "ZADD" then
    if args.length < 3 ∨ args.length % 2 = 0 then
      .error (.message "ZADD needs key and score/member pairs")
    else (zaddMembers client (pairs args.tail)).map (.zadd (args.headD ""))
  else if verb = "XADD" then
    if args.length < 4 ∨ args.length % 2 ≠ 0 then
      .error (.message "XADD needs key, id and field/value pairs")
    else .ok (.xadd (args.headD "") (args.tail.headD "") (lastBindings (pairs (args.drop 2))))
  else if verb = "RESTOREBLOB" then
    match args with
    | [key, blob] =>
      match client.decodeBlob blob with
      | none => .error (.badBlob blob)
      | some payload => .ok (.restore key payload)
    | _ => .error (.message "RESTOREBLOB needs key and payload")
  else if verb = "XGROUP" then xgroupCommand args
  else if verb = "EXPIRE" then
    match args with
    | [key, arg] =>
      match atoi? arg with
      | none => .error (.badSeconds arg)
      | some n => .ok (.expireAt key (unix (now + wrap64 (n * second))))
    | _ => .error (.message "EXPIRE needs key and seconds")
  else if verb = "PEXPIREAT" then
    match args with
    | [key, arg] =>
      match atoi? arg with
      | none => .error (.badMillis arg)
      | some n => .ok (.pexpireAt key n)
    | _ => .error (.message "PEXPIREAT needs key and millis")
  else .error (.unsupportedCommand verb)

/-- What the server does with a command: `SET` stores a string in place of
whatever the key held; an expiry that has passed leaves no key. -/
def execute {Score : Type} (client : Client Score) (now : Nat) (keyspace : Keyspace) :
    Command Score → Option Keyspace
  | .set key value none => some (keyspace.put key (some (.string value, none)))
  | .set key value (some exat) =>
    if exat ≤ 0 then none
    else if exat * 1000 ≤ unixMilli now then some (keyspace.put key none)
    else some (keyspace.put key (some (.string value, some exat)))
  | other => client.server other keyspace

/-- `restoreLine`; none stands for an error. -/
def restoreLine {Score : Type} (client : Client Score) (now : Nat) (keyspace : Keyspace) :
    List String → Option Keyspace
  | [] => none
  | verb :: args =>
    match command client now (toUpper verb) (args.map unquoteRedisArg) with
    | .error _ => none
    | .ok command => execute client now keyspace command

/-! ### The lines of a dump -/

/-- The largest buffer of the scanner: a line and its newline have to fit. -/
def maxTokenSize : Nat := 16 * 1024 * 1024

def Fits (line : String) : Prop := line.toList.length < maxTokenSize

instance (line : String) : Decidable (Fits line) := inferInstanceAs (Decidable (_ < _))

structure Progress where
  keyspace : Keyspace
  restored : Nat
  skipped : Nat
  /-- The first five lines that were skipped. -/
  skippedLines : List String

inductive RestoreError where
  | readDump
  | incomplete (skipped : Nat) (lines : List String)
deriving DecidableEq

def restoreStep {Score : Type} (client : Client Score) (now : Nat) (progress : Progress)
    (raw : String) : Progress :=
  -- The scanner drops a carriage return at the end of a line.
  let line := trimSpace (trimSuffix raw "\r")
  if line = "" ∨ hasPrefix line "#" then progress
  else
    let parts := splitRedisArgs line
    if parts = [] then progress
    else match restoreLine client now progress.keyspace parts with
      | some keyspace => { progress with keyspace, restored := progress.restored + 1 }
      | none =>
        { progress with
          skipped := progress.skipped + 1
          skippedLines :=
            if progress.skippedLines.length < 5 then progress.skippedLines ++ [line]
            else progress.skippedLines }

/-- The scan stops at the first line that does not fit into its buffer. -/
def restoreLines {Score : Type} (client : Client Score) (now : Nat) (progress : Progress) :
    List String → Progress × Option RestoreError
  | [] =>
    (progress, if 0 < progress.skipped then
      some (.incomplete progress.skipped progress.skippedLines) else none)
  | line :: rest =>
    if Fits line then restoreLines client now (restoreStep client now progress line) rest
    else (progress, some .readDump)

def restore {Score : Type} (client : Client Score) (now : Nat) (keyspace : Keyspace)
    (dump : String) : Keyspace × Option RestoreError :=
  let (progress, error) := restoreLines client now ⟨keyspace, 0, 0, []⟩ (textLines dump)
  (progress.keyspace, error)

/-! ### Quoting -/

/-- How the quoted form writes a character. -/
def escapeChar (c : Char) : List Char :=
  if c = '\\' then ['\\', '\\'] else if c = '"' then ['\\', '"']
  else if c = '\n' then ['\\', 'n'] else if c = '\r' then ['\\', 'r'] else [c]

variable (text : String)

theorem toList_quoteRedis :
    (quoteRedis text).toList = '"' :: (text.toList.flatMap escapeChar ++ ['"']) := by
  have replaced : (replaceAll (replaceAll (replaceAll (replaceAll text "\\" "\\\\") "\"" "\\\"")
      "\n" "\\n") "\r" "\\r").toList = text.toList.flatMap escapeChar := by
    unfold replaceAll
    simp only [String.toList_ofList]
    have slash : "\\".toList = ['\\'] := rfl
    have quote : "\"".toList = ['"'] := rfl
    have newline : "\n".toList = ['\n'] := rfl
    have carriage : "\r".toList = ['\r'] := rfl
    rw [slash, quote, newline, carriage, replaceChars_char, replaceChars_char, replaceChars_char,
      replaceChars_char, List.flatMap_assoc, List.flatMap_assoc, List.flatMap_assoc]
    apply List.flatMap_congr
    intro c _
    unfold escapeChar
    by_cases isSlash : c = '\\'
    · subst isSlash
      decide
    · by_cases isQuote : c = '"'
      · subst isQuote
        decide
      · by_cases isNewline : c = '\n'
        · subst isNewline
          decide
        · by_cases isReturn : c = '\r'
          · subst isReturn
            decide
          · simp [isSlash, isQuote, isNewline, isReturn]
  unfold quoteRedis
  rw [String.toList_append, String.toList_append, replaced]
  rfl

/-- Escaping writes one character, or a backslash and one. -/
theorem escapeChar_cases (c : Char) : (escapeChar c = [c] ∧ c ≠ '\\' ∧ c ≠ '"' ∧ c ≠ '\n') ∨
      ∃ d, escapeChar c = ['\\', d] ∧ escaped d = [c] ∧ d ≠ '\n' := by
  unfold escapeChar
  by_cases isSlash : c = '\\'
  · exact .inr ⟨'\\', by simp [isSlash], by simp [escaped, isSlash], by decide⟩
  · by_cases isQuote : c = '"'
    · exact .inr ⟨'"', by simp [isQuote], by simp [escaped, isQuote], by decide⟩
    · by_cases isNewline : c = '\n'
      · exact .inr ⟨'n', by simp [isNewline], by simp [escaped, isNewline], by decide⟩
      · by_cases isReturn : c = '\r'
        · exact .inr ⟨'r', by simp [isReturn], by simp [escaped, isReturn], by decide⟩
        · exact .inl ⟨by simp [isSlash, isQuote, isNewline, isReturn], isSlash, isQuote, isNewline⟩

theorem unescapeArg_cons {c : Char} (rest : List Char) (notSlash : c ≠ '\\') :
    unescapeArg (c :: rest) = c :: unescapeArg rest := by
  rw [unescapeArg]
  intro _ _ isSlash
  exact absurd isSlash notSlash

theorem unescapeArg_escape (chars : List Char) :
    unescapeArg (chars.flatMap escapeChar) = chars := by
  induction chars with
  | nil => rfl
  | cons c rest ih =>
    rw [List.flatMap_cons]
    rcases escapeChar_cases c with ⟨plain, notSlash, -, -⟩ | ⟨d, written, read, -⟩
    · rw [plain, List.singleton_append, unescapeArg_cons _ notSlash, ih]
    · rw [written, List.cons_append, List.singleton_append, unescapeArg, read,
        ih, List.singleton_append]

theorem unquoteRedisArg_quoteRedis : unquoteRedisArg (quoteRedis text) = text := by
  unfold unquoteRedisArg
  rw [toList_quoteRedis]
  have quoted : 2 ≤ ('"' :: (text.toList.flatMap escapeChar ++ ['"'])).length ∧
      ('"' :: (text.toList.flatMap escapeChar ++ ['"'])).head? = some '"' ∧
      ('"' :: (text.toList.flatMap escapeChar ++ ['"'])).getLast? = some '"' := by
    refine ⟨by simp, rfl, ?_⟩
    rw [← List.cons_append, List.getLast?_concat]
  simp only [quoted, and_self, ↓reduceIte, List.tail_cons, List.dropLast_concat]
  rw [unescapeArg_escape, String.ofList_toList]

/-- A text without quotes and backslashes is its own unquoted form. -/
theorem unquoteRedisArg_plain {text : String} (noQuote : '"' ∉ text.toList)
    (noSlash : '\\' ∉ text.toList) : unquoteRedisArg text = text := by
  have same : ∀ chars : List Char, '\\' ∉ chars → unescapeArg chars = chars := by
    intro chars free
    induction chars with
    | nil => rfl
    | cons c rest ih =>
      have notSlash : c ≠ '\\' := fun isSlash => free (isSlash ▸ List.mem_cons_self)
      rw [unescapeArg_cons _ notSlash,
        ih fun member => free (List.mem_cons_of_mem _ member)]
  have notQuoted : ¬ (2 ≤ text.toList.length ∧ text.toList.head? = some '"' ∧
      text.toList.getLast? = some '"') := fun quoted =>
    noQuote (List.mem_of_getLast? quoted.2.2)
  unfold unquoteRedisArg
  simp only [notQuoted, ↓reduceIte]
  rw [same _ noSlash, String.ofList_toList]

theorem oneLine_quoteRedis : OneLine (quoteRedis text) := by
  unfold OneLine
  rw [toList_quoteRedis]
  have escapes : '\n' ∉ text.toList.flatMap escapeChar := by
    intro member
    obtain ⟨c, -, inEscape⟩ := List.mem_flatMap.mp member
    rcases escapeChar_cases c with ⟨plain, -, -, notNewline⟩ | ⟨d, written, -, notNewline⟩
    · rw [plain, List.mem_singleton] at inEscape
      exact notNewline inEscape.symm
    · rw [written] at inEscape
      simp [Ne.symm notNewline] at inEscape
  simp [escapes]

/-! ### Splitting -/

theorem splitArgs_inQuote (chars cur rest : List Char) :
    splitArgs true cur (chars.flatMap escapeChar ++ '"' :: rest) =
      splitArgs false (cur ++ chars.flatMap escapeChar ++ ['"']) rest := by
  induction chars generalizing cur with
  | nil => simp [splitArgs]
  | cons c chars ih =>
    rw [List.flatMap_cons, List.append_assoc]
    rcases escapeChar_cases c with ⟨plain, notSlash, notQuote, -⟩ | ⟨d, written, -, -⟩
    · rw [plain, List.singleton_append, splitArgs, if_neg notQuote, if_neg (by simp),
        ih]
      · simp
      · intro _ _ _ isSlash
        exact absurd isSlash notSlash
    · rw [written, List.cons_append, List.singleton_append, splitArgs, ih]
      simp

/-- A quoted argument is read as a whole. -/
theorem splitArgs_quoted (cur rest : List Char) :
    splitArgs false cur ((quoteRedis text).toList ++ rest) =
      splitArgs false (cur ++ (quoteRedis text).toList) rest := by
  have opened : splitArgs false cur ('"' :: (text.toList.flatMap escapeChar ++ '"' :: rest)) =
      splitArgs true (cur ++ ['"']) (text.toList.flatMap escapeChar ++ '"' :: rest) := by
    rw [splitArgs, if_pos rfl]
    · rfl
    · simp
  rw [toList_quoteRedis, List.cons_append, List.append_assoc, List.singleton_append, opened,
    splitArgs_inQuote]
  simp

theorem splitArgs_plain {word : List Char} (plain : ∀ c ∈ word, c ≠ '"' ∧ c ≠ ' ')
    (cur rest : List Char) :
    splitArgs false cur (word ++ rest) = splitArgs false (cur ++ word) rest := by
  induction word generalizing cur with
  | nil => simp
  | cons c word ih =>
    obtain ⟨notQuote, notSpace⟩ := plain c List.mem_cons_self
    rw [List.cons_append, splitArgs, if_neg notQuote, if_neg (by simp [notSpace]),
      ih (List.forall_mem_cons.mp plain).2]
    · simp
    · simp

theorem splitArgs_space {cur : List Char} (notEmpty : cur ≠ []) (rest : List Char) :
    splitArgs false cur (' ' :: rest) = cur :: splitArgs false [] rest := by
  rw [splitArgs, if_neg (by decide), if_pos (by simp), if_neg notEmpty, List.singleton_append]
  simp

theorem splitArgs_end {cur : List Char} (notEmpty : cur ≠ []) : splitArgs false cur [] = [cur] := by
  rw [splitArgs, if_neg notEmpty]

end DbBackup.Engine.Redis
