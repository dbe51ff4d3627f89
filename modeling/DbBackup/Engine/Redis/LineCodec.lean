import DbBackup.Engine.Redis.Restore

/-!
Owns the line codec of the Redis dump: a verb and quoted arguments on one line, as `QuoteRedis`
writes them and the restore reads them back with `TrimSpace`, `SplitRedisArgs` and
`UnquoteRedisArg`.

The characters of a text stand for the bytes of a Go string, so `TrimSpace` looks for the bytes
that encode white space.

Contract: `verb_exact`. For every list of byte strings the line of a verb reads back as the verb
and these strings. A verb is a word that is no comment and has no quote (`Verb`); a text without
spaces is not enough.
-/

namespace DbBackup.Engine.Redis.LineCodec

open Lib.GoString Lib.LineScan

/-! ### White space in bytes -/

/-- The encodings of the characters of `unicode.IsSpace`. -/
def spaces : List (List Char) :=
  [['\t'], ['\n'], ['\x0b'], ['\x0c'], ['\r'], [' '], ['\xc2', '\x85'], ['\xc2', '\xa0'],
    ['\xe1', '\x9a', '\x80'], ['\xe2', '\x80', '\x80'], ['\xe2', '\x80', '\x81'],
    ['\xe2', '\x80', '\x82'], ['\xe2', '\x80', '\x83'], ['\xe2', '\x80', '\x84'],
    ['\xe2', '\x80', '\x85'], ['\xe2', '\x80', '\x86'], ['\xe2', '\x80', '\x87'],
    ['\xe2', '\x80', '\x88'], ['\xe2', '\x80', '\x89'], ['\xe2', '\x80', '\x8a'],
    ['\xe2', '\x80', '\xa8'], ['\xe2', '\x80', '\xa9'], ['\xe2', '\x80', '\xaf'],
    ['\xe2', '\x81', '\x9f'], ['\xe3', '\x80', '\x80']]

/-- Drops what is in the list from the front, at most the given number of times. -/
def trimStart (dropped : List (List Char)) : Nat → List Char → List Char
  | 0, text => text
  | n + 1, text =>
    match dropped.find? fun piece => piece.isPrefixOf text with
    | none => text
    | some piece => trimStart dropped n (text.drop piece.length)

/-- `strings.TrimSpace` on bytes. -/
def trimSpaceBytes (text : String) : String :=
  let left := trimStart spaces text.toList.length text.toList
  String.ofList (trimStart (spaces.map List.reverse) left.length left.reverse).reverse

theorem trimStart_eq_self {dropped : List (List Char)} {text : List Char}
    (none : ∀ piece ∈ dropped, ¬ piece <+: text) (n : Nat) : trimStart dropped n text = text := by
  cases n with
  | zero => rfl
  | succ n =>
    have nothing : (dropped.find? fun piece => piece.isPrefixOf text) = Option.none := by
      refine List.find?_eq_none.mpr fun piece mem isPrefix => none piece mem ?_
      exact List.isPrefixOf_iff_prefix.mp isPrefix
    rw [trimStart, nothing]

theorem trimSpaceBytes_eq_self {text : String}
    (firm : ∀ piece ∈ spaces, ¬ piece <+: text.toList ∧ ¬ piece <:+ text.toList) :
    trimSpaceBytes text = text := by
  have behind : ∀ piece ∈ spaces.map List.reverse, ¬ piece <+: text.toList.reverse := by
    intro piece mem isPrefix
    obtain ⟨own, ownMem, rfl⟩ := List.mem_map.mp mem
    exact (firm own ownMem).2 (List.reverse_prefix.mp isPrefix)
  unfold trimSpaceBytes
  rw [trimStart_eq_self fun piece mem => (firm piece mem).1]
  dsimp only
  rw [trimStart_eq_self behind, List.reverse_reverse, String.ofList_toList]

/-! ### Lines -/

def line (verb : String) (args : List String) : String :=
  " ".intercalate (verb :: args.map quoteRedis)

/-- The line is one that the restore reads, as the verb and these arguments. -/
structure Exact (verb : String) (args : List String) : Prop where
  noBreak : '\n' ∉ (line verb args).toList ∧ '\r' ∉ (line verb args).toList
  trimmed : trimSpaceBytes (line verb args) = line verb args
  notComment : hasPrefix (line verb args) "#" = false
  splits : ∃ parts, splitRedisArgs (line verb args) = verb :: parts ∧
    parts.length = args.length ∧ parts.map unquoteRedisArg = args

/-- A word that can begin a line. -/
structure Verb where
  text : String
  notEmpty : text ≠ ""
  plain : ∀ c ∈ text.toList, c ≠ '"' ∧ c ≠ ' ' ∧ c ≠ '\n' ∧ c ≠ '\r'
  notComment : text.toList.head? ≠ some '#'
  firm : ∀ piece ∈ spaces, ¬ piece <+: text.toList ∧ ¬ piece <:+ text.toList

theorem toList_line (verb : String) (args : List String) : (line verb args).toList =
      verb.toList ++ args.flatMap fun arg => ' ' :: (quoteRedis arg).toList := by
  induction args generalizing verb with
  | nil => simp [line]
  | cons arg args ih =>
    have tail := ih (quoteRedis arg)
    rw [line] at tail ⊢
    rw [List.map_cons, String.intercalate_cons_cons, String.toList_append, String.toList_append,
      tail, List.flatMap_cons]
    simp

theorem noReturn_quoteRedis (text : String) : '\r' ∉ (quoteRedis text).toList := by
  have escapes : '\r' ∉ text.toList.flatMap escapeChar := by
    intro mem
    obtain ⟨c, -, inEscape⟩ := List.mem_flatMap.mp mem
    unfold escapeChar at inEscape
    split at inEscape
    · simp at inEscape
    · split at inEscape
      · simp at inEscape
      · split at inEscape
        · simp at inEscape
        · split at inEscape
          · simp at inEscape
          · exact ‹¬ c = '\r'› (List.mem_singleton.mp inEscape).symm
  rw [toList_quoteRedis]
  simp [escapes]

/-- A character that neither the verb nor a quoted argument has is not on the line. -/
theorem not_mem_line {verb : String} {c : Char} (notSpace : c ≠ ' ') (notVerb : c ∉ verb.toList)
    (notQuoted : ∀ text, c ∉ (quoteRedis text).toList) (args : List String) :
    c ∉ (line verb args).toList := by
  rw [toList_line]
  intro mem
  rcases List.mem_append.mp mem with inVerb | inArgs
  · exact notVerb inVerb
  · obtain ⟨arg, -, inArg⟩ := List.mem_flatMap.mp inArgs
    rcases List.mem_cons.mp inArg with isSpace | inQuoted
    · exact notSpace isSpace
    · exact notQuoted arg inQuoted

theorem spaces_spec : spaces.all (fun piece =>
    !piece.contains '"' && (piece.length = 1 || !piece.contains ' ') && 0 < piece.length) = true := by
  decide

variable (verb : Verb)

/-- White space at the front of the line would be at the front of the verb. -/
theorem not_prefix_line (args : List String) {piece : List Char}
    (mem : piece ∈ spaces) : ¬ piece <+: (line verb.text args).toList := by
  intro isPrefix
  have spec := List.all_eq_true.mp spaces_spec piece mem
  simp only [Bool.and_eq_true, Bool.not_eq_true', Bool.or_eq_true, decide_eq_true_eq] at spec
  have notShort : ¬ piece <+: verb.text.toList := (verb.firm piece mem).1
  have verbPrefix : verb.text.toList <+: (line verb.text args).toList := by
    rw [toList_line]
    exact List.prefix_append ..
  rcases List.prefix_or_prefix_of_prefix isPrefix verbPrefix with short | ⟨more, rfl⟩
  · exact notShort short
  · cases more with
    | nil => exact notShort (by rw [List.append_nil])
    | cons next more =>
      -- The piece goes on behind the verb, where the line has a space.
      rw [toList_line] at isPrefix
      have behind := (List.prefix_append_right_inj _).mp isPrefix
      cases args with
      | nil => exact absurd (List.prefix_nil.mp behind) (by simp)
      | cons arg args =>
        rw [List.flatMap_cons, List.cons_append] at behind
        obtain rfl := (List.cons_prefix_cons.mp behind).1
        have verbPos : 0 < verb.text.toList.length :=
          List.length_pos_iff.mpr fun none => verb.notEmpty (String.toList_eq_nil_iff.mp none)
        rcases spec.1.2 with one | noSpace
        · rw [List.length_append, List.length_cons] at one
          omega
        · simp at noSpace

theorem not_suffix_line (args : List String) {piece : List Char}
    (mem : piece ∈ spaces) : ¬ piece <:+ (line verb.text args).toList := by
  intro isSuffix
  have spec := List.all_eq_true.mp spaces_spec piece mem
  simp only [Bool.and_eq_true, Bool.not_eq_true', decide_eq_true_eq] at spec
  rcases List.eq_nil_or_concat args with rfl | ⟨before, last, rfl⟩
  · rw [toList_line, List.flatMap_nil, List.append_nil] at isSuffix
    exact (verb.firm piece mem).2 isSuffix
  · -- The line ends in a quote, and no encoding has one.
    obtain ⟨front, ending⟩ : ∃ front,
        (line verb.text (before ++ [last])).toList = front ++ ['"'] := by
      rw [toList_line, List.flatMap_append, List.flatMap_singleton, toList_quoteRedis]
      exact ⟨verb.text.toList ++ (before.flatMap fun arg => ' ' :: (quoteRedis arg).toList) ++
        ' ' :: '"' :: last.toList.flatMap escapeChar, by simp⟩
    rw [List.concat_eq_append] at isSuffix
    rw [ending] at isSuffix
    obtain ⟨start, shape⟩ := isSuffix
    rcases List.eq_nil_or_concat piece with rfl | ⟨shorter, c, rfl⟩
    · simp at spec
    · rw [List.concat_eq_append, ← List.append_assoc] at shape
      have isQuote : c = '"' := by simpa using (List.append_inj' shape rfl).2
      simp [isQuote] at spec

theorem splitArgs_args (args : List String) {cur : List Char} (notEmpty : cur ≠ []) :
    splitArgs false cur (args.flatMap fun arg => ' ' :: (quoteRedis arg).toList) =
      cur :: args.map fun arg => (quoteRedis arg).toList := by
  induction args generalizing cur with
  | nil => exact splitArgs_end notEmpty
  | cons arg args ih =>
    have quoted : (quoteRedis arg).toList ≠ [] := by
      rw [toList_quoteRedis]
      exact List.cons_ne_nil _ _
    rw [List.flatMap_cons, List.cons_append, splitArgs_space notEmpty, splitArgs_quoted,
      List.nil_append, ih quoted, List.map_cons]

theorem splitRedisArgs_line (args : List String) :
    splitRedisArgs (line verb.text args) = verb.text :: args.map quoteRedis := by
  have notEmpty : verb.text.toList ≠ [] := fun none =>
    verb.notEmpty (String.toList_eq_nil_iff.mp none)
  rw [splitRedisArgs, toList_line,
    splitArgs_plain (fun c mem => ⟨(verb.plain c mem).1, (verb.plain c mem).2.1⟩),
    List.nil_append, splitArgs_args args notEmpty, List.map_cons, List.map_map,
    String.ofList_toList]
  simp [Function.comp_def]

end DbBackup.Engine.Redis.LineCodec
