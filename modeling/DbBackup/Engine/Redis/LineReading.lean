import DbBackup.Engine.Redis.Incremental
import DbBackup.Engine.Redis.KeyLines

/-!
Owns how the restore reads the lines of a dump: a rendered line is one line, is neither blank nor a
comment, and splits into its verb and the texts of its tokens (`splitRedisArgs_render`,
`unquote_render`).
-/

namespace DbBackup.Engine.Redis.Dump

open Lib.GoString Lib.LineScan Lib.Scan

/-- A word that stands for itself. -/
structure Plain (text : String) : Prop where
  notEmpty : text ≠ ""
  chars : ∀ c ∈ text.toList, c ≠ '"' ∧ c ≠ '\\' ∧ isSpace c = false

def Token.Plain : Token → Prop
  | .quoted _ => True
  | .word text => Dump.Plain text

structure Line.Readable (line : Line) : Prop where
  verb : Plain line.verb
  notComment : line.verb.toList.head? ≠ some '#'
  tokens : ∀ token ∈ line.tokens, token.Plain

variable {text : String}

theorem Plain.toList_ne_nil (plain : Plain text) : text.toList ≠ [] :=
  fun none => plain.notEmpty (String.toList_eq_nil_iff.mp none)

theorem Plain.notSpace (plain : Plain text) {c : Char} (mem : c ∈ text.toList) : c ≠ ' ' := by
  rintro rfl
  exact absurd (plain.chars _ mem).2.2 (by decide)

theorem Plain.firm (plain : Plain text) : Firm text := by
  unfold Firm
  have some := plain.toList_ne_nil
  rw [List.head?_eq_some_head some, List.getLast?_eq_some_getLast some, Option.map_some,
    Option.map_some, (plain.chars _ (List.head_mem some)).2.2,
    (plain.chars _ (List.getLast_mem some)).2.2]
  exact ⟨rfl, rfl⟩

theorem Plain.oneLine (plain : Plain text) : OneLine text :=
  fun mem => absurd (plain.chars _ mem).2.2 (by decide)

theorem Plain.unquote (plain : Plain text) : unquoteRedisArg text = text :=
  unquoteRedisArg_plain (fun mem => (plain.chars _ mem).1 rfl) fun mem => (plain.chars _ mem).2.1 rfl

theorem plain_digits (n : Nat) : Plain (toString n) where
  notEmpty := by
    intro empty
    have none := congrArg String.toList empty
    rw [toList_toString_nat] at none
    exact Nat.toDigits_ne_nil none
  chars := by
    intro c mem
    rw [toList_toString_nat] at mem
    have holds := @isDigit_all (fun c => c ≠ '"' && c ≠ '\\' && !isSpace c) (by decide) c
      (isDigit_toDigits n c mem)
    simpa [and_assoc] using holds

namespace Token

variable {token : Token}

theorem firm_render (plain : token.Plain) : Firm token.render := by
  cases token with
  | quoted text => exact firm_quoteRedis text
  | word text => exact Dump.Plain.firm plain

theorem oneLine_render (plain : token.Plain) : OneLine token.render := by
  cases token with
  | quoted text => exact oneLine_quoteRedis text
  | word text => exact Dump.Plain.oneLine plain

theorem unquote_render (plain : token.Plain) : unquoteRedisArg token.render = token.text := by
  cases token with
  | quoted text => exact unquoteRedisArg_quoteRedis text
  | word text => exact Dump.Plain.unquote plain

theorem splitArgs_render (plain : token.Plain) (cur rest : List Char) :
    splitArgs false cur (token.render.toList ++ rest) =
      splitArgs false (cur ++ token.render.toList) rest := by
  cases token with
  | quoted text => exact splitArgs_quoted text cur rest
  | word text =>
    exact splitArgs_plain (fun c mem => ⟨(plain.chars c mem).1, plain.notSpace mem⟩) cur rest

end Token

theorem intercalate_preserves {Holds : String → Prop}
    (joins : ∀ first second, Holds first → Holds second → Holds (first ++ " " ++ second))
    {words : List String} (all : ∀ word ∈ words, Holds word) (some : words ≠ []) :
    Holds (" ".intercalate words) := by
  induction words with
  | nil => exact absurd rfl some
  | cons word rest ih =>
    obtain ⟨first, others⟩ := List.forall_mem_cons.mp all
    cases rest with
    | nil => simpa using first
    | cons next rest =>
      rw [String.intercalate_cons_cons]
      exact joins _ _ first (ih others (List.cons_ne_nil _ _))

theorem toList_intercalate (first : String) (rest : List String) :
    (" ".intercalate (first :: rest)).toList =
      first.toList ++ rest.flatMap fun word => ' ' :: word.toList := by
  induction rest generalizing first with
  | nil => simp
  | cons word rest ih =>
    rw [String.intercalate_cons_cons, String.toList_append, String.toList_append,
      ih, List.flatMap_cons]
    simp

namespace Line

variable {line : Line}

theorem Readable.words (readable : line.Readable) {Holds : String → Prop}
    (verb : Holds line.verb) (token : ∀ token : Token, token.Plain → Holds token.render) :
    ∀ word ∈ line.verb :: line.tokens.map Token.render, Holds word := by
  intro word mem
  rcases List.mem_cons.mp mem with rfl | inTokens
  · exact verb
  · obtain ⟨own, ownMem, rfl⟩ := List.mem_map.mp inTokens
    exact token own (readable.tokens own ownMem)

theorem Readable.firm (readable : line.Readable) : Firm line.render := by
  refine intercalate_preserves (fun first second firmFirst firmSecond => ?_)
    (readable.words readable.verb.firm fun _ plain => Token.firm_render plain)
    (List.cons_ne_nil _ _)
  exact firmFirst.append firmSecond

theorem Readable.oneLine (readable : line.Readable) : OneLine line.render := by
  refine intercalate_preserves (fun first second oneFirst oneSecond => ?_)
    (readable.words readable.verb.oneLine fun _ plain => Token.oneLine_render plain)
    (List.cons_ne_nil _ _)
  exact (oneFirst.append (by decide)).append oneSecond

theorem Readable.notPrefix (readable : line.Readable) : hasPrefix line.render "#" = false := by
  refine Bool.eq_false_iff.mpr fun isComment => ?_
  obtain ⟨rest, shape⟩ := (hasPrefix_iff _ _).mp isComment
  have begins := congrArg String.toList shape
  rw [render, toList_intercalate, String.toList_append] at begins
  cases chars : line.verb.toList with
  | nil => exact readable.verb.toList_ne_nil chars
  | cons c behind =>
    rw [chars, List.cons_append] at begins
    refine readable.notComment ?_
    rw [chars, (List.cons_eq_cons.mp begins).1]
    rfl

theorem splitArgs_tokens {tokens : List Token} (plain : ∀ token ∈ tokens, token.Plain)
    {cur : List Char} (notEmpty : cur ≠ []) :
    splitArgs false cur ((tokens.map Token.render).flatMap fun word => ' ' :: word.toList) =
      cur :: tokens.map fun token => token.render.toList := by
  induction tokens generalizing cur with
  | nil => exact splitArgs_end notEmpty
  | cons token tokens ih =>
    obtain ⟨first, others⟩ := List.forall_mem_cons.mp plain
    have some : token.render.toList ≠ [] := fun none =>
      (Token.firm_render first).ne_empty (String.toList_eq_nil_iff.mp none)
    rw [List.map_cons, List.flatMap_cons, List.cons_append, splitArgs_space notEmpty,
      Token.splitArgs_render first, List.nil_append, ih others some,
      List.map_cons]

theorem Readable.splitRedisArgs_render (readable : line.Readable) :
    splitRedisArgs line.render = line.verb :: line.tokens.map Token.render := by
  have verb := readable.verb
  rw [splitRedisArgs, render, toList_intercalate,
    splitArgs_plain (fun c mem => ⟨(verb.chars c mem).1, verb.notSpace mem⟩), List.nil_append,
    splitArgs_tokens readable.tokens verb.toList_ne_nil, List.map_cons, List.map_map,
    String.ofList_toList]
  simp [Function.comp_def]

theorem Readable.unquote (readable : line.Readable) :
    (line.tokens.map Token.render).map unquoteRedisArg = line.tokens.map Token.text := by
  rw [List.map_map]
  refine List.map_congr_left fun token mem => ?_
  rw [Function.comp_apply, Token.unquote_render (readable.tokens token mem)]

end Line

end DbBackup.Engine.Redis.Dump
