import DbBackup.Lib.Delimited
import DbBackup.Storage.Filename

/-!
Owns what the four patterns of `ParseBackupFilename` accept: a `Stamp` is what
their common tail reads, and each pattern reads the texts that are its captures
and a stamp, joined by dashes.

Contract: the full ways of every pattern as decompositions of the text, and
which of them the priority of the lazy captures picks.
-/

set_option linter.all false

namespace DbBackup.Storage

open Lib.Backtrack Lib.Delimited Lib.GoString Lib.Time

/-! ### Stamps -/

/-- The captures of `stampPart`, with the parts that are matched and not kept. -/
structure Stamp where
  strat : String
  date : String
  time : String
  suffix : Option String
  format : String
  compress : Option String
  enc : Option String

structure Stamp.Valid (stamp : Stamp) : Prop where
  strat : stamp.strat ∈ ["full", "incr", "diff"]
  dateLength : stamp.date.toList.length = 8
  dateDigits : ∀ c ∈ stamp.date.toList, c.isDigit = true
  timeLength : stamp.time.toList.length = 6
  timeDigits : ∀ c ∈ stamp.time.toList, c.isDigit = true
  suffix : ∀ n, stamp.suffix = some n → n.toList ≠ [] ∧ ∀ c ∈ n.toList, c.isDigit = true
  format : stamp.format ∈ ["sql", "mongo", "redis", "influx", "couch"]
  compress : ∀ word, stamp.compress = some word → word ∈ ["zst", "gz", "bz2", "xz"]
  enc : ∀ word, stamp.enc = some word → word ∈ ["age", "enc", "gpg"]

/-- A part that may be absent, after its separator. -/
def optionalPart (sep : Char) : Option String → List Char
  | none => []
  | some word => sep :: word.toList

def Stamp.ending (stamp : Stamp) : List Char :=
  '.' :: (stamp.format.toList ++ optionalPart '.' stamp.compress ++ optionalPart '.' stamp.enc)

def Stamp.render (stamp : Stamp) : List Char :=
  stamp.strat.toList ++ '-' :: (stamp.date.toList ++ '-' :: (stamp.time.toList ++
    (optionalPart '-' stamp.suffix ++ stamp.ending)))

def Stamp.captures (stamp : Stamp) (tokens : Tokens) : Tokens :=
  { tokens with
    stratTok := stamp.strat
    tsTok := stamp.date ++ "-" ++ stamp.time
    compressTok := stamp.compress.getD ""
    encTok := (stamp.enc.map ("." ++ ·)).getD "" }

theorem Stamp.captures_congr {stamp other : Stamp} (same : stamp.captures {} = other.captures {})
    (tokens : Tokens) : stamp.captures tokens = other.captures tokens := by
  simp only [Stamp.captures, Tokens.mk.injEq, true_and] at same ⊢
  exact same

/-- An optional part after a one-character literal. -/
theorem mem_ways_optionalPart {sep : Char} {pattern : Matcher String} {result : Option String}
    {text rest : List Char} {accepted : String → Prop}
    (ways : ∀ word text, (word, rest) ∈ pattern.ways text ↔
      text = word.toList ++ rest ∧ accepted word) :
    (result, rest) ∈ (optional (literal (String.ofList [sep]) >>= fun _ => pattern)).ways text ↔
      text = optionalPart sep result ++ rest ∧ ∀ word, result = some word → accepted word := by
  cases result with
  | none => simp [optionalPart, eq_comm]
  | some word =>
    rw [mem_ways_optional_some, mem_ways_bind]
    simp only [mem_ways_literal, ways, optionalPart, Option.some.injEq, forall_eq']
    constructor
    · rintro ⟨_, middle, shape, middleShape, isAccepted⟩
      exact ⟨by simp [shape, middleShape], isAccepted⟩
    · rintro ⟨shape, isAccepted⟩
      exact ⟨(), word.toList ++ rest, by simp [shape], rfl, isAccepted⟩

variable {text : List Char}

theorem mem_ways_stampPart {tokens result : Tokens} : (result, []) ∈ (stampPart tokens).ways text ↔
      ∃ stamp : Stamp, stamp.Valid ∧ text = stamp.render ∧ result = stamp.captures tokens := by
  have suffixWays := fun (rest : List Char) (suffix : Option String) (text : List Char) =>
    @mem_ways_optionalPart '-' someDigits suffix text rest
      (fun n => n.toList ≠ [] ∧ ∀ c ∈ n.toList, c.isDigit = true)
      (fun word text => mem_ways_someDigits)
  have dotWays := fun (words : List String) (rest : List Char) (word : Option String)
      (text : List Char) =>
    @mem_ways_optionalPart '.' (oneOf words) word text rest (· ∈ words)
      (fun word text => by rw [mem_ways_oneOf, and_comm])
  unfold stampPart
  simp only [mem_ways_bind, mem_ways_oneOf, mem_ways_literal, mem_ways_digits, mem_ways_pure]
  constructor
  · rintro ⟨strat, text₁, ⟨stratMem, rfl⟩, -, text₂, rfl, date, text₃, ⟨rfl, dateLen, dateDig⟩,
      -, text₄, rfl, time, text₅, ⟨rfl, timeLen, timeDig⟩, suffix, text₆, suffixWay, -, text₇, rfl,
      format, text₈, ⟨formatMem, rfl⟩, compress, text₉, compressWay, enc, text₁₀, encWay, rfl, rfl⟩
    obtain ⟨rfl, suffixOk⟩ := (suffixWays _ _ _).mp suffixWay
    obtain ⟨rfl, compressOk⟩ := (dotWays _ _ _ _).mp compressWay
    obtain ⟨rfl, encOk⟩ := (dotWays _ _ _ _).mp encWay
    refine ⟨{ strat, date, time, suffix, format, compress, enc }, ?_, ?_, rfl⟩
    · exact ⟨stratMem, dateLen, dateDig, timeLen, timeDig, suffixOk, formatMem, compressOk, encOk⟩
    · simp [Stamp.render, Stamp.ending]
  · rintro ⟨stamp, valid, rfl, rfl⟩
    refine ⟨stamp.strat, _, ⟨valid.strat, rfl⟩, (), _, rfl, stamp.date, _,
      ⟨rfl, valid.dateLength, valid.dateDigits⟩, (), _, rfl, stamp.time, _,
      ⟨rfl, valid.timeLength, valid.timeDigits⟩, stamp.suffix, _,
      (suffixWays _ _ _).mpr ⟨rfl, valid.suffix⟩, (), _, rfl, stamp.format, _,
      ⟨valid.format, List.append_assoc _ _ _⟩, stamp.compress, _,
      (dotWays _ _ _ _).mpr ⟨rfl, valid.compress⟩, stamp.enc, [],
      (dotWays _ _ _ _).mpr ⟨(List.append_nil _).symm, valid.enc⟩, rfl, rfl⟩

variable {sep : Char}

theorem not_mem_of_digits {word : List Char} (notDigit : sep.isDigit = false)
    (digits : ∀ c ∈ word, c.isDigit = true) : sep ∉ word := by
  intro member
  rw [digits sep member] at notDigit
  exact absurd notDigit (by simp)

variable {stamp : Stamp}

theorem Stamp.Valid.strat_noDash (valid : stamp.Valid) : '-' ∉ stamp.strat.toList := by
  have all : ∀ word ∈ ["full", "incr", "diff"], '-' ∉ word.toList := by decide
  exact all _ valid.strat

theorem Stamp.Valid.strat_ne_nil (valid : stamp.Valid) : stamp.strat.toList ≠ [] := by
  have all : ∀ word ∈ ["full", "incr", "diff"], word.toList ≠ [] := by decide
  exact all _ valid.strat

theorem optionalPart_cases {part : Option String} {words : List String}
    (known : ∀ word, part = some word → word ∈ words) :
    optionalPart sep part ∈ [] :: words.map (fun word => sep :: word.toList) := by
  cases part with
  | none => simp [optionalPart]
  | some word => simpa [optionalPart] using ⟨word, known word rfl, rfl⟩

/-- An ending is made of dots, letters and digits. -/
theorem Stamp.Valid.not_mem_ending (valid : stamp.Valid) {c : Char}
    (notDot : c ≠ '.') (notAlphanum : c.isAlphanum = false) : c ∉ stamp.ending := by
  have formats : ∀ word ∈ ["sql", "mongo", "redis", "influx", "couch"],
      word.toList.all (fun c => c = '.' || c.isAlphanum) = true := by decide
  have compressions : ∀ part ∈ [] :: ["zst", "gz", "bz2", "xz"].map (fun word => '.' :: word.toList),
      part.all (fun c => c = '.' || c.isAlphanum) = true := by decide
  have encryptions : ∀ part ∈ [] :: ["age", "enc", "gpg"].map (fun word => '.' :: word.toList),
      part.all (fun c => c = '.' || c.isAlphanum) = true := by decide
  have absent : ∀ part : List Char, part.all (fun c => c = '.' || c.isAlphanum) = true →
      c ∉ part := by
    intro part all member
    have known := List.all_eq_true.mp all c member
    simp [notDot, notAlphanum] at known
  have noFormat := absent _ (formats _ valid.format)
  have noCompress := absent _ (compressions _ (optionalPart_cases valid.compress))
  have noEnc := absent _ (encryptions _ (optionalPart_cases valid.enc))
  simp [Stamp.ending, noFormat, noCompress, noEnc, notDot]

theorem Stamp.Valid.ending_noDash (valid : stamp.Valid) : '-' ∉ stamp.ending :=
  valid.not_mem_ending (by decide) (by decide)

/-- The words of the two optional endings are told apart by their text. -/
theorem optionalParts_injective :
    ∀ c ∈ [none, some "zst", some "gz", some "bz2", some "xz"],
    ∀ c' ∈ [none, some "zst", some "gz", some "bz2", some "xz"],
    ∀ e ∈ [none, some "age", some "enc", some "gpg"],
    ∀ e' ∈ [none, some "age", some "enc", some "gpg"],
      optionalPart '.' c ++ optionalPart '.' e = optionalPart '.' c' ++ optionalPart '.' e' →
        c = c' ∧ e = e' := by
  decide +kernel

theorem mem_options {part : Option String} {words : List String}
    (known : ∀ word, part = some word → word ∈ words) : part ∈ none :: words.map some := by
  cases part with
  | none => simp
  | some word => simpa using known word rfl

theorem takeWhile_format {format : String} {parts : List Char}
    (known : format ∈ ["sql", "mongo", "redis", "influx", "couch"])
    (dotted : parts = [] ∨ ∃ rest, parts = '.' :: rest) :
    (format.toList ++ parts).takeWhile (· ≠ '.') = format.toList := by
  have all : ∀ word ∈ ["sql", "mongo", "redis", "influx", "couch"],
      word.toList.all (· ≠ '.') = true := by decide
  have noDot : ∀ c ∈ format.toList, (c ≠ '.') = true := by
    intro c member
    have := List.all_eq_true.mp (all _ known) c member
    simpa using this
  rw [List.takeWhile_append_of_pos (by simpa using noDot)]
  rcases dotted with rfl | ⟨rest, rfl⟩
  · simp
  · simp

theorem optionalParts_dotted (c e : Option String) : optionalPart '.' c ++ optionalPart '.' e = [] ∨
      ∃ rest, optionalPart '.' c ++ optionalPart '.' e = '.' :: rest := by
  cases c with
  | some word => exact .inr ⟨_, rfl⟩
  | none =>
    cases e with
    | some word => exact .inr ⟨_, rfl⟩
    | none => exact .inl rfl

theorem Stamp.ending_injective {stamp other : Stamp} (valid : stamp.Valid) (otherValid : other.Valid)
    (same : stamp.ending = other.ending) :
    stamp.format = other.format ∧ stamp.compress = other.compress ∧ stamp.enc = other.enc := by
  unfold Stamp.ending at same
  rw [List.cons.injEq, List.append_assoc, List.append_assoc] at same
  have formats := congrArg (List.takeWhile (· ≠ '.')) same.2
  rw [takeWhile_format valid.format (optionalParts_dotted _ _),
    takeWhile_format otherValid.format (optionalParts_dotted _ _)] at formats
  have sameFormat := String.toList_injective formats
  have sameParts := same.2
  rw [sameFormat] at sameParts
  have parts := optionalParts_injective _ (mem_options valid.compress) _
    (mem_options otherValid.compress) _ (mem_options valid.enc) _ (mem_options otherValid.enc)
    (List.append_cancel_left sameParts)
  exact ⟨sameFormat, parts⟩

/-- The part of a rendered stamp after its last dash, and what stands before. -/
theorem Stamp.render_eq (stamp : Stamp) (start : List Char) : start ++ '-' :: stamp.render =
      match stamp.suffix with
      | none => ((start ++ '-' :: stamp.strat.toList) ++ '-' :: stamp.date.toList) ++
          '-' :: (stamp.time.toList ++ stamp.ending)
      | some n => (((start ++ '-' :: stamp.strat.toList) ++ '-' :: stamp.date.toList) ++
          '-' :: stamp.time.toList) ++ '-' :: (n.toList ++ stamp.ending) := by
  cases isSuffix : stamp.suffix with
  | none => simp [Stamp.render, isSuffix, optionalPart]
  | some n => simp [Stamp.render, isSuffix, optionalPart]

/-- A text that ends in a date, a time and an ending is read as a stamp in one
way only: its date is that date, if it has eight digits, and the stamp has no
collision suffix. -/
theorem Stamp.tail_unique (valid : stamp.Valid)
    {start before date time ending : List Char} (longDate : 8 ≤ date.length)
    (dateNoDash : '-' ∉ date) (lastNoDash : '-' ∉ time ++ ending)
    (same : start ++ '-' :: stamp.render = (before ++ '-' :: date) ++ '-' :: (time ++ ending)) :
    stamp.suffix = none ∧ stamp.date.toList = date ∧
      stamp.time.toList ++ stamp.ending = time ++ ending ∧
      start ++ '-' :: stamp.strat.toList = before := by
  rw [stamp.render_eq start] at same
  have timeNoDash := not_mem_of_digits (by decide : '-'.isDigit = false) valid.timeDigits
  have stampDateNoDash := not_mem_of_digits (by decide : '-'.isDigit = false) valid.dateDigits
  cases isSuffix : stamp.suffix with
  | none =>
    rw [isSuffix] at same
    have noDash : '-' ∉ stamp.time.toList ++ stamp.ending := by
      simp [timeNoDash, valid.ending_noDash]
    obtain ⟨sameBefore, sameLast⟩ := append_cons_inj_right noDash lastNoDash same
    obtain ⟨sameStart, sameDate⟩ := append_cons_inj_right stampDateNoDash dateNoDash sameBefore
    exact ⟨rfl, sameDate, sameLast, sameStart⟩
  | some n =>
    rw [isSuffix] at same
    have noDash : '-' ∉ n.toList ++ stamp.ending := by
      have := not_mem_of_digits (by decide : '-'.isDigit = false) (valid.suffix n isSuffix).2
      simp [this, valid.ending_noDash]
    obtain ⟨sameBefore, _⟩ := append_cons_inj_right noDash lastNoDash same
    obtain ⟨_, sameDate⟩ := append_cons_inj_right timeNoDash dateNoDash sameBefore
    have lengths := congrArg List.length sameDate
    rw [valid.timeLength] at lengths
    omega

/-! ### The four patterns -/

/-- The text of an IPv4 address with its dots replaced. -/
def IsAddress (word : String) : Prop :=
  ∃ a b c d : String,
    (∀ part ∈ [a, b, c, d], part.toList ≠ [] ∧ ∀ digit ∈ part.toList, digit.isDigit = true) ∧
      word = a ++ "_" ++ b ++ "_" ++ c ++ "_" ++ d

theorem mem_ways_addressTok {word : String} {text rest : List Char} :
    (word, rest) ∈ addressTok.ways text ↔ text = word.toList ++ rest ∧ IsAddress word := by
  unfold addressTok
  simp only [mem_ways_bind, mem_ways_someDigits, mem_ways_literal, mem_ways_pure]
  constructor
  · rintro ⟨a, _, ⟨rfl, aOk⟩, -, _, rfl, b, _, ⟨rfl, bOk⟩, -, _, rfl, c, _, ⟨rfl, cOk⟩, -, _, rfl,
      d, _, ⟨rfl, dOk⟩, rfl, rfl⟩
    refine ⟨by simp, a, b, c, d, ?_, rfl⟩
    intro part member
    simp only [List.mem_cons, List.not_mem_nil, or_false] at member
    rcases member with rfl | rfl | rfl | rfl
    · exact aOk
    · exact bOk
    · exact cOk
    · exact dOk
  · rintro ⟨rfl, a, b, c, d, parts, rfl⟩
    refine ⟨a, _, ⟨?_, parts a (by simp)⟩, (), _, rfl, b, _, ⟨rfl, parts b (by simp)⟩, (), _, rfl,
      c, _, ⟨rfl, parts c (by simp)⟩, (), _, rfl, d, _, ⟨rfl, parts d (by simp)⟩, rfl, rfl⟩
    simp

variable {result : Tokens}

theorem mem_ways_backupRe :
    (result, []) ∈ backupRe.ways text ↔
      ∃ (t d h : String) (stamp : Stamp), stamp.Valid ∧
        text = t.toList ++ '-' :: (d.toList ++ '-' :: (h.toList ++ '-' :: stamp.render)) ∧
        ('\n' ∉ t.toList ∧ '\n' ∉ d.toList ∧ '\n' ∉ h.toList) ∧
        result = stamp.captures { typeTok := t, dbTok := d, hostTok := h } := by
  unfold backupRe
  simp only [mem_ways_bind, mem_ways_lazyAny, mem_ways_literal, mem_ways_stampPart]
  constructor
  · rintro ⟨t, _, ⟨rfl, tOk⟩, -, _, rfl, d, _, ⟨rfl, dOk⟩, -, _, rfl, h, _, ⟨rfl, hOk⟩, -, _, rfl,
      stamp, valid, rfl, rfl⟩
    exact ⟨t, d, h, stamp, valid, rfl, ⟨tOk, dOk, hOk⟩, rfl⟩
  · rintro ⟨t, d, h, stamp, valid, rfl, ⟨tOk, dOk, hOk⟩, rfl⟩
    exact ⟨t, _, ⟨rfl, tOk⟩, (), _, rfl, d, _, ⟨rfl, dOk⟩, (), _, rfl, h, _, ⟨rfl, hOk⟩, (), _, rfl,
      stamp, valid, rfl, rfl⟩

theorem mem_ways_backupReIP :
    (result, []) ∈ backupReIP.ways text ↔
      ∃ (t d h : String) (stamp : Stamp), stamp.Valid ∧
        text = t.toList ++ '-' :: (d.toList ++ '-' :: (h.toList ++ '-' :: stamp.render)) ∧
        ('\n' ∉ t.toList ∧ '\n' ∉ d.toList ∧ IsAddress h) ∧
        result = stamp.captures { typeTok := t, dbTok := d, hostTok := h } := by
  unfold backupReIP
  simp only [mem_ways_bind, mem_ways_lazyAny, mem_ways_literal, mem_ways_addressTok,
    mem_ways_stampPart]
  constructor
  · rintro ⟨t, _, ⟨rfl, tOk⟩, -, _, rfl, d, _, ⟨rfl, dOk⟩, -, _, rfl, h, _, ⟨rfl, hOk⟩, -, _, rfl,
      stamp, valid, rfl, rfl⟩
    exact ⟨t, d, h, stamp, valid, rfl, ⟨tOk, dOk, hOk⟩, rfl⟩
  · rintro ⟨t, d, h, stamp, valid, rfl, ⟨tOk, dOk, hOk⟩, rfl⟩
    exact ⟨t, _, ⟨rfl, tOk⟩, (), _, rfl, d, _, ⟨rfl, dOk⟩, (), _, rfl, h, _, ⟨rfl, hOk⟩, (), _, rfl,
      stamp, valid, rfl, rfl⟩

theorem mem_ways_backupReNoHost :
    (result, []) ∈ backupReNoHost.ways text ↔
      ∃ (t d : String) (stamp : Stamp), stamp.Valid ∧
        text = t.toList ++ '-' :: (d.toList ++ '-' :: stamp.render) ∧
        ('\n' ∉ t.toList ∧ '\n' ∉ d.toList) ∧
        result = stamp.captures { typeTok := t, dbTok := d } := by
  unfold backupReNoHost
  simp only [mem_ways_bind, mem_ways_lazyAny, mem_ways_literal, mem_ways_stampPart]
  constructor
  · rintro ⟨t, _, ⟨rfl, tOk⟩, -, _, rfl, d, _, ⟨rfl, dOk⟩, -, _, rfl, stamp, valid, rfl, rfl⟩
    exact ⟨t, d, stamp, valid, rfl, ⟨tOk, dOk⟩, rfl⟩
  · rintro ⟨t, d, stamp, valid, rfl, ⟨tOk, dOk⟩, rfl⟩
    exact ⟨t, _, ⟨rfl, tOk⟩, (), _, rfl, d, _, ⟨rfl, dOk⟩, (), _, rfl, stamp, valid, rfl, rfl⟩

theorem mem_ways_backupReTypeOnly :
    (result, []) ∈ backupReTypeOnly.ways text ↔
      ∃ (t : String) (stamp : Stamp), stamp.Valid ∧
        text = t.toList ++ '-' :: stamp.render ∧ '\n' ∉ t.toList ∧
        result = stamp.captures { typeTok := t } := by
  unfold backupReTypeOnly
  simp only [mem_ways_bind, mem_ways_lazyAny, mem_ways_literal, mem_ways_stampPart]
  constructor
  · rintro ⟨t, _, ⟨rfl, tOk⟩, -, _, rfl, stamp, valid, rfl, rfl⟩
    exact ⟨t, stamp, valid, rfl, tOk, rfl⟩
  · rintro ⟨t, stamp, valid, rfl, tOk, rfl⟩
    exact ⟨t, _, ⟨rfl, tOk⟩, (), _, rfl, stamp, valid, rfl, rfl⟩

/-! ### What the priority picks -/

theorem exists_first_sep (member : sep ∈ text) :
    ∃ word rest, text = word ++ sep :: rest ∧ sep ∉ word := by
  induction text with
  | nil => simp at member
  | cons head tail ih =>
    by_cases isSep : head = sep
    · exact ⟨[], tail, by simp [isSep], by simp⟩
    · have inTail : sep ∈ tail := by
        rcases List.mem_cons.mp member with isHead | inTail
        · exact absurd isHead.symm isSep
        · exact inTail
      obtain ⟨word, rest, shape, noSep⟩ := ih inTail
      refine ⟨head :: word, rest, by simp [shape], ?_⟩
      simp [noSep, Ne.symm isSep]

variable {base : String} {tokens : Tokens}

/-- The first capture of a pattern holds no dash, if what follows it can take
over the part of the capture after a dash. -/
theorem noDash_of_fullMatch {following : String → Matcher Tokens} (capture : Tokens → String)
    (found : fullMatch (lazyAny >>= fun t => literal "-" >>= fun _ => following t) base =
      some tokens)
    (captured : ∀ t rest result, (result, []) ∈ (following t).ways rest → capture result = t)
    (absorbs : ∀ t rest result word tail, t.toList = word ++ '-' :: tail → '\n' ∉ tail →
      (result, []) ∈ (following t).ways rest →
      ∃ other, (other, []) ∈ (following (String.ofList word)).ways (tail ++ '-' :: rest)) :
    '-' ∉ (capture tokens).toList := by
  intro hasDash
  have way := mem_ways_of_fullMatch found
  simp only [mem_ways_bind, mem_ways_lazyAny, mem_ways_literal] at way
  obtain ⟨t, _, ⟨shape, noNewline⟩, _, rest, rfl, inner⟩ := way
  rw [captured t rest tokens inner] at hasDash
  obtain ⟨word, tail, split, noDash⟩ := exists_first_sep hasDash
  have newlineParts : '\n' ∉ word ∧ '\n' ∉ tail := by
    rw [split] at noNewline
    simpa using noNewline
  have possible := absorbs t rest tokens word tail split newlineParts.2 inner
  have restShape : base.toList = word ++ '-' :: (tail ++ '-' :: rest) := by
    rw [shape, split]
    simp
  have shorter := @mem_ways_of_fullMatch_lazyAny _ _ following '-' word _ noDash newlineParts.1
    restShape possible tokens found
  have same := (captured _ _ _ inner).symm.trans (captured _ _ _ shorter)
  rw [same] at split
  have lengths := congrArg List.length split
  simp at lengths

theorem typeTok_noDash_backupRe
    (found : fullMatch backupRe base = some tokens) : '-' ∉ tokens.typeTok.toList := by
  apply noDash_of_fullMatch Tokens.typeTok found
  · intro t rest result
    simp only [mem_ways_bind, mem_ways_lazyAny, mem_ways_literal, mem_ways_stampPart]
    rintro ⟨d, _, -, -, _, -, h, _, -, -, _, -, stamp, -, -, rfl⟩
    rfl
  · intro t rest result word tail split noNewline
    simp only [mem_ways_bind, mem_ways_lazyAny, mem_ways_literal, mem_ways_stampPart]
    rintro ⟨d, _, ⟨rfl, dOk⟩, -, _, rfl, h, _, ⟨rfl, hOk⟩, -, _, rfl, stamp, valid, rfl, -⟩
    refine ⟨_, String.ofList (tail ++ '-' :: d.toList), _, ⟨?_, ?_⟩, (), _, rfl, h, _, ⟨rfl, hOk⟩,
      (), _, rfl, stamp, valid, rfl, rfl⟩
    · simp
    · simp [noNewline, dOk]

theorem typeTok_noDash_backupReIP
    (found : fullMatch backupReIP base = some tokens) : '-' ∉ tokens.typeTok.toList := by
  apply noDash_of_fullMatch Tokens.typeTok found
  · intro t rest result
    simp only [mem_ways_bind, mem_ways_lazyAny, mem_ways_literal, mem_ways_addressTok,
      mem_ways_stampPart]
    rintro ⟨d, _, -, -, _, -, h, _, -, -, _, -, stamp, -, -, rfl⟩
    rfl
  · intro t rest result word tail split noNewline
    simp only [mem_ways_bind, mem_ways_lazyAny, mem_ways_literal, mem_ways_addressTok,
      mem_ways_stampPart]
    rintro ⟨d, _, ⟨rfl, dOk⟩, -, _, rfl, h, _, ⟨rfl, hOk⟩, -, _, rfl, stamp, valid, rfl, -⟩
    refine ⟨_, String.ofList (tail ++ '-' :: d.toList), _, ⟨?_, ?_⟩, (), _, rfl, h, _, ⟨rfl, hOk⟩,
      (), _, rfl, stamp, valid, rfl, rfl⟩
    · simp
    · simp [noNewline, dOk]

/-- How a base name is read: with a host, with a database, or with a type alone.
A capture is free of dashes where a shorter one, or an earlier pattern, would
have been preferred otherwise. -/
inductive Reading (base : String) : Tokens → Prop where
  | withHost (t d h : String) (stamp : Stamp) (valid : stamp.Valid)
      (shape : base.toList = t.toList ++ '-' :: (d.toList ++ '-' :: (h.toList ++ '-' :: stamp.render)))
      (noNewline : '\n' ∉ t.toList ∧ '\n' ∉ d.toList ∧ '\n' ∉ h.toList)
      (noDash : '-' ∉ t.toList) :
      Reading base (stamp.captures { typeTok := t, dbTok := d, hostTok := h })
  | noHost (t d : String) (stamp : Stamp) (valid : stamp.Valid)
      (shape : base.toList = t.toList ++ '-' :: (d.toList ++ '-' :: stamp.render))
      (noNewline : '\n' ∉ t.toList ∧ '\n' ∉ d.toList)
      (noDash : '-' ∉ t.toList ∧ '-' ∉ d.toList) :
      Reading base (stamp.captures { typeTok := t, dbTok := d })
  | typeOnly (t : String) (stamp : Stamp) (valid : stamp.Valid)
      (shape : base.toList = t.toList ++ '-' :: stamp.render) (noNewline : '\n' ∉ t.toList)
      (noDash : '-' ∉ t.toList) : Reading base (stamp.captures { typeTok := t })

theorem IsAddress.noNewline {word : String} (address : IsAddress word) : '\n' ∉ word.toList := by
  obtain ⟨a, b, c, d, parts, rfl⟩ := address
  have clean : ∀ part ∈ [a, b, c, d], '\n' ∉ part.toList := fun part member =>
    not_mem_of_digits (by decide) (parts part member).2
  simpa using clean

theorem reading_of_filenameTokens
    (found : filenameTokens base = some tokens) : Reading base tokens := by
  unfold filenameTokens at found
  cases ip : fullMatch backupReIP base with
  | some read =>
    rw [ip, Option.some_or, Option.some.injEq] at found
    rw [found] at ip
    have noDash := typeTok_noDash_backupReIP ip
    obtain ⟨t, d, h, stamp, valid, shape, ⟨tOk, dOk, hOk⟩, rfl⟩ :=
      mem_ways_backupReIP.mp (mem_ways_of_fullMatch ip)
    exact .withHost t d h stamp valid shape ⟨tOk, dOk, hOk.noNewline⟩ noDash
  | none =>
  cases re : fullMatch backupRe base with
  | some read =>
    rw [ip, re, Option.none_or, Option.some_or, Option.some.injEq] at found
    rw [found] at re
    have noDash := typeTok_noDash_backupRe re
    obtain ⟨t, d, h, stamp, valid, shape, clean, rfl⟩ :=
      mem_ways_backupRe.mp (mem_ways_of_fullMatch re)
    exact .withHost t d h stamp valid shape clean noDash
  | none =>
  have noThree := fullMatch_eq_none_iff.mp re
  cases noHost : fullMatch backupReNoHost base with
  | some read =>
    rw [ip, re, noHost, Option.none_or, Option.none_or, Option.some_or,
      Option.some.injEq] at found
    rw [found] at noHost
    obtain ⟨t, d, stamp, valid, shape, clean, rfl⟩ :=
      mem_ways_backupReNoHost.mp (mem_ways_of_fullMatch noHost)
    refine .noHost t d stamp valid shape clean ⟨?_, ?_⟩
    -- a dash in either capture would have left something for a host
    · intro hasDash
      obtain ⟨word, rest, split, _⟩ := exists_first_sep hasDash
      rw [split] at shape clean
      apply noThree _ (mem_ways_backupRe.mpr ⟨String.ofList word, String.ofList rest, d, stamp,
        valid, by simp [shape], ?_, rfl⟩)
      simpa [and_assoc] using clean
    · intro hasDash
      obtain ⟨word, rest, split, _⟩ := exists_first_sep hasDash
      rw [split] at shape clean
      apply noThree _ (mem_ways_backupRe.mpr ⟨t, String.ofList word, String.ofList rest, stamp,
        valid, by simp [shape], ?_, rfl⟩)
      simpa using clean
  | none =>
    rw [ip, re, noHost, Option.none_or, Option.none_or, Option.none_or] at found
    have noTwo := fullMatch_eq_none_iff.mp noHost
    obtain ⟨t, stamp, valid, shape, clean, rfl⟩ :=
      mem_ways_backupReTypeOnly.mp (mem_ways_of_fullMatch found)
    refine .typeOnly t stamp valid shape clean ?_
    intro hasDash
    obtain ⟨word, rest, split, _⟩ := exists_first_sep hasDash
    rw [split] at shape clean
    apply noTwo _ (mem_ways_backupReNoHost.mpr ⟨String.ofList word, String.ofList rest, stamp,
      valid, by simp [shape], ?_, rfl⟩)
    simpa using clean

theorem filenameTokens_eq_none (unread : filenameTokens base = none) :
    fullMatch backupReIP base = none ∧ fullMatch backupRe base = none ∧
      fullMatch backupReNoHost base = none ∧ fullMatch backupReTypeOnly base = none := by
  unfold filenameTokens at unread
  simpa [Option.or_eq_none_iff] using unread

theorem parseBackupFilename_eq_ok_iff {path : String} {info : BackupInfo} :
    parseBackupFilename path = .ok info ↔
      ∃ tokens timestamp, filenameTokens (filepathBase path) = some tokens ∧
        parseCompact tokens.tsTok = some timestamp ∧
        info =
          { type := tokens.typeTok
            dbName := tokens.dbTok
            host := tokens.hostTok
            strategy := strategyOfToken tokens.stratTok
            timestamp := timestamp
            path := filepathBase path
            compress :=
              if tokens.compressTok = "" then "" else extToCompress ("." ++ tokens.compressTok)
            encryption := extToEncryption tokens.encTok } := by
  unfold parseBackupFilename
  dsimp only
  cases read : filenameTokens (filepathBase path) with
  | none => simp
  | some tokens =>
    cases stamp : parseCompact tokens.tsTok with
    | none => simp [stamp]
    | some timestamp =>
      simp only [Except.ok.injEq, Option.some.injEq, exists_and_left, exists_eq_left', stamp]
      exact eq_comm

end DbBackup.Storage
