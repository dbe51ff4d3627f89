import DbBackup.Engine.Redis.Restore

/-!
Owns the incremental dump of a Redis server and what a restore makes of it.

Contract: exactly when every dumped key comes back with the value it has in the
database the dump was asked for (`restoresValues_iff`). The dump reads database
0 whatever it was asked for, and writes every value as the text of one `SET`.
-/

set_option linter.all false

namespace DbBackup.Engine.Redis

open Lib.Duration Lib.GoString Lib.LineScan Lib.Scan

/-! ### The dump -/

/-- A key's value and the whole seconds of the time to live the client reports,
negative for a key that does not expire. -/
structure Entry where
  value : Value
  ttlSec : Int
  inRange : ttlSec ≤ 9223372036

structure Server where
  host : String
  port : Nat
  /-- A host the client could connect to. -/
  hostLine : OneLine host
  databases : Nat → String → Option Entry
  /-- `DUMP` of a value. -/
  serialized : Value → String
  /-- The pages of `SCAN` on database 0, each key with what it holds. -/
  pages : List (List (String × Entry))
  scanned : ∀ page ∈ pages, ∀ key entry, (key, entry) ∈ page → databases 0 key = some entry

/-- The text the dump writes for a value. -/
def Server.plainText (server : Server) : Value → String
  | .string text => text
  | .list items => ", ".intercalate items
  | .set members => "\x7b" ++ ", ".intercalate members ++ "\x7d"
  | .hash fields => "\x7b" ++ ", ".intercalate (fields.map fun (k, v) => k ++ ": " ++ v) ++ "\x7d"
  | value => server.serialized value

def Server.setLine (server : Server) (key : String) (entry : Entry) : String :=
  let command := "SET " ++ quoteRedis key ++ " " ++ quoteRedis (server.plainText entry.value)
  if 0 < entry.ttlSec then command ++ " EX " ++ toString entry.ttlSec else command

def Server.header (server : Server) : List String :=
  ["# Redis dump", "# Host: " ++ server.host ++ ":" ++ toString server.port, "#", ""]

def Server.setLines (server : Server) (entries : List (String × Entry)) : List String :=
  entries.map fun dumped => server.setLine dumped.1 dumped.2

/-- `IncrementalDump`. The database it was asked for is no argument of it. -/
def Server.incrementalDump (server : Server) : String :=
  joinLines (server.header ++ server.setLines server.pages.flatten)

/-- Replaying the dump into an empty database gives every dumped key the value
it has in database `n`. -/
def RestoresValues {Score : Type} (client : Client Score) (now : Nat) (server : Server) (n : Nat) :
    Prop :=
  ∀ key entry, (key, entry) ∈ server.pages.flatten → ∃ stored, server.databases n key = some stored ∧
    ((restore client now .empty server.incrementalDump).1 key).map Prod.fst = some stored.value

/-! ### The lines of the dump -/

/-- A line that neither begins nor ends in blank space is read as it stands. -/
theorem trimmed_of_firm {raw : String} (firm : Firm raw) : trimSpace (trimSuffix raw "\r") = raw := by
  have kept : trimSuffix raw "\r" = raw := by
    rcases trimSuffix_cases raw "\r" with same | shape
    · exact same
    · have last : raw.toList.getLast? = some '\r' := by
        rw [shape, String.toList_append]
        exact List.getLast?_concat
      have solid := firm.2
      rw [last] at solid
      exact absurd solid (by decide)
  rw [kept, trimSpace_of_firm firm]

theorem toList_toString_nat (n : Nat) : (toString n).toList = Nat.toDigits 10 n := Nat.toList_repr

theorem toString_toNat {n : Int} (positive : 0 < n) : toString n = toString n.toNat := by
  obtain ⟨m, rfl⟩ := Int.eq_ofNat_of_zero_le (Int.le_of_lt positive)
  rfl

theorem firm_digits (n : Nat) : Firm (toString n) := by
  unfold Firm
  rw [toList_toString_nat]
  have notEmpty : Nat.toDigits 10 n ≠ [] := Nat.toDigits_ne_nil
  have solid : ∀ c ∈ Nat.toDigits 10 n, isSpace c = false := fun c member => by
    simpa using @isDigit_all (fun c => !isSpace c) (by decide) c (isDigit_toDigits n c member)
  rw [List.head?_eq_some_head notEmpty, List.getLast?_eq_some_getLast notEmpty]
  exact ⟨congrArg some (solid _ (List.head_mem _)), congrArg some (solid _ (List.getLast_mem _))⟩

theorem oneLine_digits (n : Nat) : OneLine (toString n) := by
  unfold OneLine
  rw [toList_toString_nat]
  intro member
  exact absurd (isDigit_toDigits n _ member) (by decide)

theorem firm_quoteRedis (text : String) : Firm (quoteRedis text) := by
  unfold Firm
  rw [toList_quoteRedis, ← List.cons_append, List.getLast?_concat]
  exact ⟨rfl, by decide⟩

/-- The two forms of a line: without and with a time to live. -/
theorem setLine_cases (server : Server) (key : String) (entry : Entry) :
    (server.setLine key entry = "SET " ++ quoteRedis key ++ " " ++
        quoteRedis (server.plainText entry.value)) ∨
      ∃ seconds : Nat, 0 < seconds ∧ seconds ≤ 9223372036 ∧
        server.setLine key entry = "SET " ++ quoteRedis key ++ " " ++
          quoteRedis (server.plainText entry.value) ++ " EX " ++ toString seconds := by
  unfold Server.setLine
  by_cases positive : 0 < entry.ttlSec
  · right
    have inRange := entry.inRange
    refine ⟨entry.ttlSec.toNat, by omega, by omega, ?_⟩
    simp only [positive, ↓reduceIte, toString_toNat positive]
  · left
    simp only [positive, ↓reduceIte]

theorem oneLine_setLine (server : Server) (key : String) (entry : Entry) :
    OneLine (server.setLine key entry) := by
  have command : OneLine ("SET " ++ quoteRedis key ++ " " ++
      quoteRedis (server.plainText entry.value)) := by
    refine .append (.append (.append ?_ (oneLine_quoteRedis _)) ?_) (oneLine_quoteRedis _)
    · decide
    · decide
  rcases setLine_cases server key entry with shape | ⟨seconds, -, -, shape⟩
  · rw [shape]
    exact command
  · rw [shape]
    exact .append (.append command (by decide)) (oneLine_digits seconds)

theorem firm_setLine (server : Server) (key : String) (entry : Entry) :
    Firm (server.setLine key entry) := by
  have starts : Firm "SET" := by decide
  have verb : "SET " = "SET" ++ " " := rfl
  rcases setLine_cases server key entry with shape | ⟨seconds, -, -, shape⟩
  · have firm := @Firm.append "SET" (" " ++ quoteRedis key ++ " ") _ starts
      (firm_quoteRedis (server.plainText entry.value))
    rw [shape, verb]
    simp only [String.append_assoc] at firm ⊢
    exact firm
  · have firm := @Firm.append "SET" (" " ++ quoteRedis key ++ " " ++
      quoteRedis (server.plainText entry.value) ++ " EX ") _ starts (firm_digits seconds)
    rw [shape, verb]
    simp only [String.append_assoc] at firm ⊢
    exact firm

/-! ### Reading a line -/

theorem splitArgs_set (key value : String) (rest : List Char) :
    splitArgs false [] ("SET ".toList ++ (quoteRedis key).toList ++ " ".toList ++
        (quoteRedis value).toList ++ rest) =
      "SET".toList :: (quoteRedis key).toList :: splitArgs false (quoteRedis value).toList rest := by
  have notEmpty : (quoteRedis key).toList ≠ [] := by
    rw [toList_quoteRedis]
    exact List.cons_ne_nil _ _
  have verb : "SET ".toList = "SET".toList ++ [' '] := rfl
  have space : " ".toList = [' '] := rfl
  have plain : ∀ c ∈ "SET".toList, c ≠ '"' ∧ c ≠ ' ' := by simp
  rw [verb, space]
  simp only [List.append_assoc, List.cons_append, List.nil_append]
  rw [splitArgs_plain plain, List.nil_append, splitArgs_space (by decide), splitArgs_quoted,
    List.nil_append, splitArgs_space notEmpty, splitArgs_quoted, List.nil_append]

theorem splitRedisArgs_set (key value : String) :
    splitRedisArgs ("SET " ++ quoteRedis key ++ " " ++ quoteRedis value) =
      ["SET", quoteRedis key, quoteRedis value] := by
  have notEmpty : (quoteRedis value).toList ≠ [] := by
    rw [toList_quoteRedis]
    exact List.cons_ne_nil _ _
  have arguments := splitArgs_set key value []
  rw [List.append_nil, splitArgs_end notEmpty] at arguments
  unfold splitRedisArgs
  simp only [String.toList_append]
  rw [arguments]
  simp only [List.map_cons, List.map_nil, String.ofList_toList]

theorem splitRedisArgs_setEx (key value : String) (seconds : Nat) :
    splitRedisArgs ("SET " ++ quoteRedis key ++ " " ++ quoteRedis value ++ " EX " ++
        toString seconds) = ["SET", quoteRedis key, quoteRedis value, "EX", toString seconds] := by
  have notEmpty : (quoteRedis value).toList ≠ [] := by
    rw [toList_quoteRedis]
    exact List.cons_ne_nil _ _
  have option : " EX ".toList = ' ' :: ("EX".toList ++ [' ']) := rfl
  have plainOption : ∀ c ∈ "EX".toList, c ≠ '"' ∧ c ≠ ' ' := by simp
  have plainDigits : ∀ c ∈ (toString seconds).toList, c ≠ '"' ∧ c ≠ ' ' := by
    rw [toList_toString_nat]
    intro c member
    simpa using @isDigit_all (fun c => c ≠ '"' && c ≠ ' ') (by decide) c
      (isDigit_toDigits seconds c member)
  have digits : (toString seconds).toList ≠ [] := by
    rw [toList_toString_nat]
    exact Nat.toDigits_ne_nil
  have tail : splitArgs false (quoteRedis value).toList (" EX ".toList ++ (toString seconds).toList) =
      [(quoteRedis value).toList, "EX".toList, (toString seconds).toList] := by
    rw [option, List.cons_append, splitArgs_space notEmpty, List.append_assoc,
      splitArgs_plain plainOption, List.nil_append, List.singleton_append,
      splitArgs_space (by decide)]
    have last := splitArgs_plain plainDigits [] []
    rw [List.append_nil, List.nil_append, splitArgs_end digits] at last
    rw [last]
  have arguments := splitArgs_set key value (" EX ".toList ++ (toString seconds).toList)
  rw [tail] at arguments
  unfold splitRedisArgs
  simp only [String.toList_append, List.append_assoc] at arguments ⊢
  rw [arguments]
  simp only [List.map_cons, List.map_nil, String.ofList_toList]

theorem atoi?_toString {n : Nat} (inRange : n ≤ 9223372036) : atoi? (toString n) = some (n : Int) := by
  have shape : toString n = String.ofList (Nat.toDigits 10 n) := by
    apply String.toList_injective
    rw [toList_toString_nat, String.toList_ofList]
  have read := @atoi_toDigits n (by unfold maxDuration; omega)
  unfold atoi?
  rw [shape, read]
  rfl

variable {Score : Type} (client : Client Score) (now : Nat)

/-- A line of the dump stores the text of its value. -/
theorem restoreLine_setLine (server : Server) (key : String) (entry : Entry) (keyspace : Keyspace) :
    ∃ expiry, restoreLine client now keyspace (splitRedisArgs (server.setLine key entry)) =
      some (keyspace.put key (some (.string (server.plainText entry.value), expiry))) := by
  have verb : toUpper "SET" = "SET" := by decide
  rcases setLine_cases server key entry with shape | ⟨seconds, positive, inRange, shape⟩
  · refine ⟨none, ?_⟩
    rw [shape, splitRedisArgs_set]
    simp only [restoreLine, verb, command, List.map_cons, List.map_nil, unquoteRedisArg_quoteRedis,
      ↓reduceIte, setCommand, splitSetOptions, Except.map, execute]
  · have option : unquoteRedisArg "EX" = "EX" := by decide
    have upper : toUpper "EX" = "EX" := by decide
    have number : unquoteRedisArg (toString seconds) = toString seconds := by
      apply unquoteRedisArg_plain
      · rw [toList_toString_nat]
        intro member
        exact absurd (isDigit_toDigits seconds _ member) (by decide)
      · rw [toList_toString_nat]
        intro member
        exact absurd (isDigit_toDigits seconds _ member) (by decide)
    have exact : wrap64 ((seconds : Int) * second) = seconds * second := by
      apply wrap64_eq_self
      · unfold minDuration second
        omega
      · unfold maxDuration second
        omega
    have notZero : ¬ ((now : Int) + seconds * second = zeroTime) := by
      unfold zeroTime second
      omega
    have later : ¬ unix (now + seconds * second) ≤ 0 ∧
        ¬ unix (now + seconds * second) * 1000 ≤ unixMilli now := by
      unfold unix unixMilli second millisecond
      omega
    refine ⟨some (unix (now + seconds * second)), ?_⟩
    rw [shape, splitRedisArgs_setEx]
    simp only [restoreLine, verb, command, List.map_cons, List.map_nil, unquoteRedisArg_quoteRedis,
      ↓reduceIte, setCommand, splitSetOptions, option, upper, number, atoi?_toString inRange, exact,
      true_or, Except.map, notZero, execute, later]

theorem restoreStep_setLine (server : Server) (key : String) (entry : Entry) (progress : Progress) :
    ∃ expiry, (restoreStep client now progress (server.setLine key entry)).keyspace =
      progress.keyspace.put key (some (.string (server.plainText entry.value), expiry)) := by
  have firm := firm_setLine server key entry
  obtain ⟨expiry, executed⟩ := restoreLine_setLine client now server key entry progress.keyspace
  refine ⟨expiry, ?_⟩
  have notComment : hasPrefix (server.setLine key entry) "#" = false := by
    rcases setLine_cases server key entry with shape | ⟨seconds, -, -, shape⟩ <;>
      rw [shape] <;> simp [hasPrefix, List.isPrefixOf]
  have someArgs : splitRedisArgs (server.setLine key entry) ≠ [] := by
    intro noArgs
    rw [noArgs] at executed
    cases executed
  unfold restoreStep
  simp only [trimmed_of_firm firm, firm.ne_empty, notComment, someArgs, executed, or_self,
    Bool.false_eq_true, ↓reduceIte]

theorem restoreStep_comment (progress : Progress) {raw : String} (firm : Firm raw)
    (comment : hasPrefix raw "#" = true) : restoreStep client now progress raw = progress := by
  unfold restoreStep
  simp only [trimmed_of_firm firm, comment, or_true, ↓reduceIte]

/-! ### The whole dump -/

def Server.hostComment (server : Server) : String :=
  "# Host: " ++ server.host ++ ":" ++ toString server.port

theorem firm_hostComment (server : Server) : Firm server.hostComment := by
  have starts : Firm "#" := by decide
  have words : "# Host: " = "#" ++ " Host: " := rfl
  have firm := @Firm.append "#" (" Host: " ++ server.host ++ ":") _ starts (firm_digits server.port)
  unfold Server.hostComment
  rw [words]
  simp only [String.append_assoc] at firm ⊢
  exact firm

/-- The comments at the top do nothing, as long as the scan gets past them. -/
theorem restoreLines_header (server : Server) (progress : Progress) (lines : List String) :
    restoreLines client now progress (server.header ++ lines) =
      if Fits server.hostComment then restoreLines client now progress lines
      else (progress, some .readDump) := by
  have title : restoreStep client now progress "# Redis dump" = progress :=
    restoreStep_comment client now progress (by decide) (by decide)
  have comment : restoreStep client now progress server.hostComment = progress := by
    refine restoreStep_comment client now progress (firm_hostComment server) ?_
    simp [Server.hostComment, hasPrefix]
  have mark : restoreStep client now progress "#" = progress :=
    restoreStep_comment client now progress (by decide) (by decide)
  have blank : restoreStep client now progress "" = progress := by
    have empty : trimSpace (trimSuffix "" "\r") = "" := by decide
    unfold restoreStep
    simp only [empty, true_or, ↓reduceIte]
  have short : Fits "# Redis dump" ∧ Fits "#" ∧ Fits "" := by
    unfold Fits maxTokenSize
    simp
  have shape : server.header ++ lines =
      "# Redis dump" :: server.hostComment :: "#" :: "" :: lines := rfl
  rw [shape, restoreLines, if_pos short.1, title, restoreLines, comment]
  split
  · rw [restoreLines, if_pos short.2.1, mark, restoreLines, if_pos short.2.2, blank]
  · rfl

/-- A key that is there stays there. -/
theorem restoreLines_isSome (server : Server) (entries : List (String × Entry))
    (progress : Progress) (key : String) (present : (progress.keyspace key).isSome = true) :
    ((restoreLines client now progress (server.setLines entries)).1.keyspace key).isSome = true := by
  induction entries generalizing progress with
  | nil => exact present
  | cons head rest ih =>
    unfold Server.setLines
    rw [List.map_cons, restoreLines]
    split
    · apply ih
      obtain ⟨expiry, stored⟩ := restoreStep_setLine client now server head.1 head.2 progress
      rw [stored]
      unfold Keyspace.put
      split
      · rfl
      · exact present
    · exact present

theorem restoreLines_complete (server : Server) (entries : List (String × Entry))
    (fits : ∀ key entry, (key, entry) ∈ entries → Fits (server.setLine key entry))
    (progress : Progress) {key : String} {entry : Entry} (dumped : (key, entry) ∈ entries) :
    ((restoreLines client now progress (server.setLines entries)).1.keyspace key).isSome = true := by
  induction entries generalizing progress with
  | nil => cases dumped
  | cons head rest ih =>
    have headFits : Fits (server.setLine head.1 head.2) := fits _ _ List.mem_cons_self
    have restFits : ∀ key entry, (key, entry) ∈ rest → Fits (server.setLine key entry) :=
      fun key entry member => fits key entry (List.mem_cons_of_mem _ member)
    unfold Server.setLines
    rw [List.map_cons, restoreLines, if_pos headFits]
    rcases List.mem_cons.mp dumped with rfl | later
    · apply restoreLines_isSome client now server rest
      obtain ⟨expiry, stored⟩ := restoreStep_setLine client now server key entry progress
      rw [stored]
      simp [Keyspace.put]
    · exact ih restFits _ later

/-- What a key holds afterwards it held before, or a line that fits wrote it. -/
theorem restoreLines_sound (server : Server) (entries : List (String × Entry)) (progress : Progress)
    (key : String) :
    (restoreLines client now progress (server.setLines entries)).1.keyspace key =
        progress.keyspace key ∨
      ∃ entry expiry, (key, entry) ∈ entries ∧ Fits (server.setLine key entry) ∧
        (restoreLines client now progress (server.setLines entries)).1.keyspace key =
          some (.string (server.plainText entry.value), expiry) := by
  induction entries generalizing progress with
  | nil => exact .inl rfl
  | cons head rest ih =>
    unfold Server.setLines
    rw [List.map_cons, restoreLines]
    by_cases headFits : Fits (server.setLine head.1 head.2)
    · rw [if_pos headFits]
      obtain ⟨expiry, stored⟩ := restoreStep_setLine client now server head.1 head.2 progress
      rcases ih (restoreStep client now progress (server.setLine head.1 head.2))
        with same | ⟨entry, later, member, fits, written⟩
      · rw [stored, Keyspace.put] at same
        by_cases isHead : key = head.1
        · rw [if_pos isHead] at same
          refine .inr ⟨head.2, expiry, ?_, ?_, same⟩
          · rw [isHead]
            exact List.mem_cons_self
          · rw [isHead]
            exact headFits
        · rw [if_neg isHead] at same
          exact .inl same
      · exact .inr ⟨entry, later, List.mem_cons_of_mem _ member, fits, written⟩
    · rw [if_neg headFits]
      exact .inl rfl

theorem restored_eq (server : Server) :
    (restore client now .empty server.incrementalDump).1 =
      if Fits server.hostComment then
        (restoreLines client now ⟨.empty, 0, 0, []⟩ (server.setLines server.pages.flatten)).1.keyspace
      else .empty := by
  have oneLine : ∀ line ∈ server.header ++ server.setLines server.pages.flatten, OneLine line := by
    intro line member
    rcases List.mem_append.mp member with inHeader | inLines
    · have host : OneLine server.hostComment :=
        .append (.append (.append (by decide) server.hostLine) (by decide)) (oneLine_digits _)
      have shape : server.header = ["# Redis dump", server.hostComment, "#", ""] := rfl
      rw [shape] at inHeader
      simp only [List.mem_cons, List.not_mem_nil, or_false] at inHeader
      rcases inHeader with rfl | rfl | rfl | rfl
      · decide
      · exact host
      · decide
      · decide
    · obtain ⟨entry, -, rfl⟩ := List.mem_map.mp inLines
      exact oneLine_setLine server entry.1 entry.2
  have lines : textLines server.incrementalDump =
      server.header ++ server.setLines server.pages.flatten := textLines_joinLines oneLine
  unfold restore
  rw [lines, restoreLines_header]
  by_cases hostFits : Fits server.hostComment
  · rw [if_pos hostFits, if_pos hostFits]
  · rw [if_neg hostFits, if_neg hostFits]

/-- The line of the key fits into the scanner's buffer and database `n` holds
the text of the line as a string. -/
def RestoresKey (server : Server) (n : Nat) (key : String) (entry : Entry) : Prop :=
  Fits server.hostComment ∧ Fits (server.setLine key entry) ∧
    (server.databases n key).map Entry.value = some (.string (server.plainText entry.value))

theorem Server.entry_unique (server : Server) {key : String} {first second : Entry}
    (firstDumped : (key, first) ∈ server.pages.flatten)
    (secondDumped : (key, second) ∈ server.pages.flatten) : first = second := by
  obtain ⟨firstPage, inPages, onPage⟩ := List.mem_flatten.mp firstDumped
  obtain ⟨secondPage, alsoInPages, onOther⟩ := List.mem_flatten.mp secondDumped
  have one := server.scanned firstPage inPages key first onPage
  have two := server.scanned secondPage alsoInPages key second onOther
  rw [one] at two
  exact Option.some.inj two

theorem restoresValues_iff (server : Server) (n : Nat) :
    RestoresValues client now server n ↔
      ∀ key entry, (key, entry) ∈ server.pages.flatten → RestoresKey server n key entry := by
  unfold RestoresValues
  rw [restored_eq]
  constructor
  · intro restores key entry dumped
    obtain ⟨stored, inDatabase, isValue⟩ := restores key entry dumped
    by_cases hostFits : Fits server.hostComment
    · rw [if_pos hostFits] at isValue
      rcases restoreLines_sound client now server server.pages.flatten ⟨.empty, 0, 0, []⟩ key
        with same | ⟨other, expiry, member, fits, written⟩
      · rw [same] at isValue
        cases isValue
      · have sameEntry := server.entry_unique dumped member
        rw [← sameEntry] at fits written
        rw [written] at isValue
        refine ⟨hostFits, fits, ?_⟩
        rw [inDatabase, Option.map_some, ← isValue, Option.map_some]
    · rw [if_neg hostFits] at isValue
      cases isValue
  · intro restorable key entry dumped
    obtain ⟨hostFits, -, inDatabase⟩ := restorable key entry dumped
    obtain ⟨stored, isStored, sameText⟩ := Option.map_eq_some_iff.mp inDatabase
    have present := restoreLines_complete client now server server.pages.flatten
      (fun key entry member => (restorable key entry member).2.1) ⟨.empty, 0, 0, []⟩ dumped
    refine ⟨stored, isStored, ?_⟩
    rw [if_pos hostFits]
    rcases restoreLines_sound client now server server.pages.flatten ⟨.empty, 0, 0, []⟩ key
      with same | ⟨other, expiry, member, -, written⟩
    · rw [same] at present
      cases present
    · rw [written, Option.map_some, sameText, server.entry_unique dumped member]

/-! ### A list -/

def queue : Entry := ⟨.list ["first", "second"], -1, by decide⟩

def queueServer : Server where
  host := "cache"
  port := 6379
  hostLine := by decide
  databases n key := if n = 0 ∧ key = "queue" then some queue else none
  serialized _ := ""
  pages := [[("queue", queue)]]
  scanned := by
    intro page inPages key entry member
    rw [List.mem_singleton.mp inPages, List.mem_singleton, Prod.mk.injEq] at member
    rw [member.1, member.2]
    rfl

def noClient : Client Unit := ⟨fun _ => none, fun _ => none, fun _ _ => none⟩

/-- A list comes back as a string with its items in a row. -/
theorem list_becomes_string : ¬ RestoresValues noClient 0 queueServer 0 := by
  intro restores
  obtain ⟨stored, inDatabase, isValue⟩ := restores "queue" queue (List.mem_singleton_self _)
  have isQueue : stored = queue := (Option.some.inj inDatabase).symm
  have text : ((restore noClient 0 .empty queueServer.incrementalDump).1 "queue").map Prod.fst =
      some (.string "first, second") := by
    decide +kernel
  rw [text, isQueue] at isValue
  cases isValue

end DbBackup.Engine.Redis
