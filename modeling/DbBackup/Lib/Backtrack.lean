import DbBackup.Lib.GoString

/-!
Owns matching by prioritised backtracking, the way Perl and Go's `regexp`
choose among the matches of an anchored pattern.

A matcher returns every way to consume a beginning of the text, the preferred
way first: a lazy repetition lists the short ways first, a greedy repetition
or an option the long ways first. Running matchers one after another keeps
that order, and `fullMatch` takes the first way that consumes the whole text.
-/

set_option linter.all false

namespace DbBackup.Lib.Backtrack

structure Matcher (β : Type) where
  ways : List Char → List (β × List Char)

namespace Matcher

variable {β γ : Type}

protected def pure (value : β) : Matcher β :=
  ⟨fun text => [(value, text)]⟩

protected def bind (first : Matcher β) (following : β → Matcher γ) : Matcher γ :=
  ⟨fun text => (first.ways text).flatMap fun way => (following way.1).ways way.2⟩

instance : Monad Matcher where
  pure := Matcher.pure
  bind := Matcher.bind

end Matcher

def literal (expected : String) : Matcher Unit :=
  ⟨fun text =>
    if expected.toList.isPrefixOf text then [((), text.drop expected.toList.length)] else []⟩

/-- The first alternative that fits is preferred: `(a|b|c)`. -/
def oneOf (alternatives : List String) : Matcher String :=
  ⟨fun text => alternatives.flatMap fun word =>
    if word.toList.isPrefixOf text then [(word, text.drop word.toList.length)] else []⟩

def lazyWays (accepts : Char → Bool) : List Char → List (List Char × List Char)
  | [] => [([], [])]
  | head :: tail =>
    ([], head :: tail) ::
      if accepts head then
        (lazyWays accepts tail).map fun way => (head :: way.1, way.2)
      else []

/-- `(.*?)`: any characters but line breaks, as few as possible. -/
def lazyAny : Matcher String :=
  ⟨fun text => (lazyWays (· ≠ '\n') text).map fun way => (String.ofList way.1, way.2)⟩

def digits (count : Nat) : Matcher String :=
  ⟨fun text =>
    let word := text.take count
    if word.length = count ∧ word.all Char.isDigit then
      [(String.ofList word, text.drop count)]
    else []⟩

/-- `\d+`: as many digits as possible first. -/
def someDigits : Matcher String :=
  ⟨fun text =>
    ((lazyWays Char.isDigit text).reverse.filter fun way => way.1 ≠ []).map fun way =>
      (String.ofList way.1, way.2)⟩

/-- `(m)?`: with the pattern first, then without it. -/
def optional {β : Type} (pattern : Matcher β) : Matcher (Option β) :=
  ⟨fun text =>
    (pattern.ways text).map (fun way => (some way.1, way.2)) ++ [(none, text)]⟩

/-- `[class]*`: as many characters as possible first. -/
def manyOf (accepts : Char → Bool) : Matcher String :=
  ⟨fun text => (lazyWays accepts text).reverse.map fun way => (String.ofList way.1, way.2)⟩

/-- `[class]+`: as many characters as possible first. -/
def someOf (accepts : Char → Bool) : Matcher String :=
  ⟨fun text => ((manyOf accepts).ways text).filter fun way => way.1 ≠ ""⟩

/-- `[class]{low,high}`: as many characters as possible first. -/
def between (accepts : Char → Bool) (low high : Nat) : Matcher String :=
  ⟨fun text =>
    ((manyOf accepts).ways text).filter fun way =>
      low ≤ way.1.toList.length ∧ way.1.toList.length ≤ high⟩

/-- `(a|b|c)` of patterns. -/
def anyOf {β : Type} (alternatives : List (Matcher β)) : Matcher β :=
  ⟨fun text => alternatives.flatMap fun pattern => pattern.ways text⟩

/-- `(?i)`: a letter in either case, and the two letters outside ASCII that fold
into it. -/
def foldsTo (expected c : Char) : Bool :=
  c.toLower = expected.toLower || (c = '\u017f' && expected.toLower = 's') ||
    (c = '\u212a' && expected.toLower = 'k')

/-- `(?i)word`: the characters that stand for it. -/
def foldWord (expected : String) : Matcher String :=
  ⟨fun text =>
    let word := text.take expected.toList.length
    if word.length = expected.toList.length ∧
        (expected.toList.zip word).all (fun pair => foldsTo pair.1 pair.2) then
      [(String.ofList word, text.drop expected.toList.length)]
    else []⟩

/-- `\s`. -/
def isBlank (c : Char) : Bool := c = ' ' || c = '\t' || c = '\n' || c = '\x0c' || c = '\r'

def isWordChar (c : Char) : Bool := c.isAlphanum || c = '_'

/-- `\b`, between the character before and the one after. -/
def isBoundary (before after : Option Char) : Bool :=
  before.any isWordChar != after.any isWordChar

/-- `FindStringSubmatch`: the preferred way at the leftmost place that has one.
`fits` looks at the character before the place. -/
def search {β : Type} (fits : Option Char → List Char → Bool) (pattern : Matcher β) :
    Option Char → List Char → Option β
  | before, [] => if fits before [] then ((pattern.ways []).head?).map Prod.fst else none
  | before, c :: rest =>
    match if fits before (c :: rest) then (pattern.ways (c :: rest)).head? else none with
    | some way => some way.1
    | none => search fits pattern (some c) rest

def findSubmatch {β : Type} (pattern : Matcher β) (text : String) : Option β :=
  search (fun _ _ => true) pattern none text.toList

/-- `\b` and the pattern. -/
def findWordSubmatch {β : Type} (pattern : Matcher β) (text : String) : Option β :=
  search (fun before rest => isBoundary before rest.head?) pattern none text.toList

/-- `^pattern$`: the captures of the preferred way to consume the whole text. -/
def fullMatch {β : Type} (pattern : Matcher β) (text : String) : Option β :=
  ((pattern.ways text.toList).find? fun way => way.2 = []).map Prod.fst

/-! ### What a way consumes

One rule per matcher: the ways are the splits of the text into what the matcher
consumes and the rest. -/

section

variable {β γ : Type} {text rest : List Char}

@[simp] theorem mem_ways_pure {value result : β} :
    (result, rest) ∈ (pure value : Matcher β).ways text ↔ result = value ∧ rest = text := by
  show (result, rest) ∈ [(value, text)] ↔ _
  simp

theorem ways_bind (first : Matcher β) (following : β → Matcher γ) (text : List Char) :
    (first >>= following).ways text =
      (first.ways text).flatMap fun way => (following way.1).ways way.2 := rfl

@[simp] theorem mem_ways_bind {first : Matcher β} {following : β → Matcher γ} {result : γ} :
    (result, rest) ∈ (first >>= following).ways text ↔
      ∃ value middle, (value, middle) ∈ first.ways text ∧
        (result, rest) ∈ (following value).ways middle := by
  show (result, rest) ∈ (first.ways text).flatMap (fun way => (following way.1).ways way.2) ↔ _
  simp

private theorem isPrefixOf_iff_append {word : List Char} :
    word.isPrefixOf text = true ∧ rest = text.drop word.length ↔ text = word ++ rest := by
  rw [List.isPrefixOf_iff_prefix]
  constructor
  · rintro ⟨⟨tail, shape⟩, isRest⟩
    rw [isRest, ← shape]
    simp
  · intro shape
    rw [shape]
    simp

@[simp] theorem mem_ways_literal {expected : String} {result : Unit} :
    (result, rest) ∈ (literal expected).ways text ↔ text = expected.toList ++ rest := by
  rw [← isPrefixOf_iff_append]
  unfold literal
  dsimp only
  split
  · next fits => simp [fits]
  · next fails => simp [fails]

variable {result : String}

@[simp] theorem mem_ways_oneOf {alternatives : List String} :
    (result, rest) ∈ (oneOf alternatives).ways text ↔
      result ∈ alternatives ∧ text = result.toList ++ rest := by
  unfold oneOf
  dsimp only
  rw [List.mem_flatMap]
  constructor
  · rintro ⟨word, member, found⟩
    split at found
    · next fits =>
        rw [List.mem_singleton, Prod.mk.injEq] at found
        rw [found.1]
        exact ⟨member, isPrefixOf_iff_append.mp ⟨fits, found.2⟩⟩
    · simp at found
  · rintro ⟨member, shape⟩
    have fits := isPrefixOf_iff_append.mpr shape
    refine ⟨result, member, ?_⟩
    rw [if_pos fits.1, List.mem_singleton, Prod.mk.injEq]
    exact ⟨rfl, fits.2⟩

theorem mem_lazyWays {accepts : Char → Bool} {word : List Char} :
    (word, rest) ∈ lazyWays accepts text ↔
      text = word ++ rest ∧ ∀ c ∈ word, accepts c = true := by
  induction text generalizing word with
  | nil =>
    simp only [lazyWays, List.mem_singleton, Prod.mk.injEq, List.nil_eq, List.append_eq_nil_iff]
    constructor
    · rintro ⟨noWord, noRest⟩
      exact ⟨⟨noWord, noRest⟩, by simp [noWord]⟩
    · rintro ⟨both, _⟩
      exact both
  | cons head tail ih =>
    rw [lazyWays, List.mem_cons, Prod.mk.injEq]
    cases word with
    | nil =>
      have notLonger : (([] : List Char), rest) ∉ (if accepts head = true then
          (lazyWays accepts tail).map fun way => (head :: way.1, way.2) else []) := by
        split <;> simp
      rw [or_iff_left notLonger]
      constructor
      · rintro ⟨_, isRest⟩
        exact ⟨isRest.symm, by simp⟩
      · rintro ⟨shape, _⟩
        exact ⟨rfl, shape.symm⟩
    | cons first word =>
      by_cases accepted : accepts head = true
      · simp only [accepted, if_true, List.mem_map, Prod.exists, Prod.mk.injEq,
          List.cons.injEq, reduceCtorEq, false_and, false_or]
        constructor
        · rintro ⟨_, _, found, ⟨rfl, rfl⟩, rfl⟩
          obtain ⟨shape, all⟩ := ih.mp found
          exact ⟨by simp [shape], by simpa [accepted] using all⟩
        · rintro ⟨shape, all⟩
          rw [List.cons_append, List.cons.injEq] at shape
          refine ⟨word, rest, ih.mpr ⟨shape.2, ?_⟩, ⟨shape.1, rfl⟩, rfl⟩
          intro c member
          exact all c (by simp [member])
      · simp only [accepted, reduceCtorEq, false_and, false_or, if_false, List.not_mem_nil,
          false_iff]
        rintro ⟨shape, all⟩
        rw [List.cons_append, List.cons.injEq] at shape
        have := all first (by simp)
        rw [← shape.1] at this
        exact accepted this

@[simp] theorem mem_ways_lazyAny :
    (result, rest) ∈ lazyAny.ways text ↔
      text = result.toList ++ rest ∧ '\n' ∉ result.toList := by
  unfold lazyAny
  simp only [List.mem_map, Prod.exists, mem_lazyWays, Prod.mk.injEq, decide_eq_true_eq]
  constructor
  · rintro ⟨word, _, ⟨shape, all⟩, rfl, rfl⟩
    refine ⟨by simpa using shape, ?_⟩
    intro newline
    exact all '\n' (by simpa using newline) rfl
  · rintro ⟨shape, noNewline⟩
    refine ⟨result.toList, rest, ⟨shape, ?_⟩, by simp, rfl⟩
    intro c member isNewline
    exact noNewline (isNewline ▸ member)

@[simp] theorem mem_ways_digits {count : Nat} : (result, rest) ∈ (digits count).ways text ↔
      text = result.toList ++ rest ∧ result.toList.length = count ∧
        ∀ c ∈ result.toList, c.isDigit = true := by
  unfold digits
  dsimp only
  constructor
  · intro found
    split at found
    · next fits =>
        rw [List.mem_singleton, Prod.mk.injEq] at found
        rw [found.1, found.2]
        simpa using fits
    · simp at found
  · rintro ⟨shape, isCount, all⟩
    have taken : text.take count = result.toList := by
      rw [shape, ← isCount, List.take_left]
    have dropped : text.drop count = rest := by
      rw [shape, ← isCount, List.drop_left]
    rw [taken, dropped, if_pos ⟨isCount, by simpa using all⟩]
    simp

@[simp] theorem mem_ways_someDigits :
    (result, rest) ∈ someDigits.ways text ↔
      text = result.toList ++ rest ∧ result.toList ≠ [] ∧
        ∀ c ∈ result.toList, c.isDigit = true := by
  unfold someDigits
  simp only [List.mem_map, List.mem_filter, List.mem_reverse, Prod.exists, mem_lazyWays,
    Prod.mk.injEq, decide_eq_true_eq]
  constructor
  · rintro ⟨word, _, ⟨⟨shape, all⟩, notEmpty⟩, rfl, rfl⟩
    exact ⟨by simpa using shape, by simpa using notEmpty, by simpa using all⟩
  · rintro ⟨shape, notEmpty, all⟩
    exact ⟨result.toList, rest, ⟨⟨shape, all⟩, notEmpty⟩, by simp, rfl⟩

@[simp] theorem mem_ways_manyOf {accepts : Char → Bool} :
    (result, rest) ∈ (manyOf accepts).ways text ↔
      text = result.toList ++ rest ∧ ∀ c ∈ result.toList, accepts c = true := by
  unfold manyOf
  simp only [List.mem_map, List.mem_reverse, Prod.exists, mem_lazyWays, Prod.mk.injEq]
  constructor
  · rintro ⟨word, _, ⟨shape, all⟩, rfl, rfl⟩
    exact ⟨by simpa using shape, by simpa using all⟩
  · rintro ⟨shape, all⟩
    exact ⟨result.toList, rest, ⟨shape, all⟩, by simp, rfl⟩

@[simp] theorem mem_ways_between {accepts : Char → Bool} {low high : Nat} :
    (result, rest) ∈ (between accepts low high).ways text ↔
      (text = result.toList ++ rest ∧ ∀ c ∈ result.toList, accepts c = true) ∧
        low ≤ result.toList.length ∧ result.toList.length ≤ high := by
  unfold between
  simp

@[simp] theorem mem_ways_optional_some {pattern : Matcher β} {result : β} :
    (some result, rest) ∈ (optional pattern).ways text ↔ (result, rest) ∈ pattern.ways text := by
  unfold optional
  simp

@[simp] theorem mem_ways_optional_none {pattern : Matcher β} :
    (none, rest) ∈ (optional pattern).ways text ↔ rest = text := by
  unfold optional
  simp

end

/-! ### Searching -/

section

variable {β : Type} {pattern : Matcher β} {fits : Option Char → List Char → Bool}

/-- What a search finds is matched somewhere in the text. -/
theorem exists_way_of_search {before : Option Char} {text : List Char} {value : β}
    (found : search fits pattern before text = some value) :
    ∃ start tail rest, text = start ++ tail ∧ (value, rest) ∈ pattern.ways tail := by
  have here {text : List Char} {before : Option Char} {way : β × List Char}
      (chosen : (if fits before text then (pattern.ways text).head? else none) = some way) :
      way ∈ pattern.ways text := by
    split at chosen
    · exact List.mem_of_mem_head? chosen
    · cases chosen
  induction text generalizing before with
  | nil =>
    rw [search] at found
    split at found
    · rename_i fitting
      obtain ⟨way, chosen, rfl⟩ := Option.map_eq_some_iff.mp found
      exact ⟨[], [], way.2, rfl, List.mem_of_mem_head? chosen⟩
    · cases found
  | cons c rest ih =>
    rw [search] at found
    split at found
    · rename_i way chosen
      rw [← Option.some.inj found]
      exact ⟨[], c :: rest, way.2, rfl, here chosen⟩
    · obtain ⟨start, tail, after, shape, member⟩ := ih found
      exact ⟨c :: start, tail, after, by rw [shape]; rfl, member⟩

/-- A pattern that matches somewhere in the text is found. -/
theorem search_isSome {before : Option Char} {start tail rest : List Char} {value : β}
    (member : (value, rest) ∈ pattern.ways tail) :
    (search (fun _ _ => true) pattern before (start ++ tail)).isSome = true := by
  have some {text : List Char} (way : (value, rest) ∈ pattern.ways text) :
      ∃ first, (pattern.ways text).head? = some first := by
    cases ways : pattern.ways text with
    | nil =>
      rw [ways] at way
      cases way
    | cons first others => exact ⟨first, rfl⟩
  induction start generalizing before with
  | nil =>
    obtain ⟨first, isFirst⟩ := some member
    cases tail with
    | nil => simp [search, isFirst]
    | cons c others => simp [search, isFirst]
  | cons c others ih =>
    rw [List.cons_append, search]
    split
    · rfl
    · exact ih

end

/-! ### The preferred full match -/

section

variable {β : Type} {pattern : Matcher β} {text : String}

theorem mem_ways_of_fullMatch {value : β} (found : fullMatch pattern text = some value) :
    (value, []) ∈ pattern.ways text.toList := by
  unfold fullMatch at found
  obtain ⟨way, search, isValue⟩ := Option.map_eq_some_iff.mp found
  have full : way.2 = [] := by simpa using List.find?_some search
  have member := List.mem_of_find?_eq_some search
  rw [← isValue, ← full]
  exact member

theorem fullMatch_eq_none_iff :
    fullMatch pattern text = none ↔ ∀ value, (value, []) ∉ pattern.ways text.toList := by
  unfold fullMatch
  rw [Option.map_eq_none_iff, List.find?_eq_none]
  constructor
  · intro rejected value member
    exact rejected (value, []) member (by simp)
  · intro absent way member full
    have isNil : way.2 = [] := by simpa using full
    apply absent way.1
    rw [← isNil]
    exact member

private theorem flatMap_lazyWays_append {γ : Type} {accepts : Char → Bool} {stop : Char}
    {rest : List Char} :
    ∀ (word : List Char) (onWay : List Char × List Char → List γ),
      stop ∉ word → (∀ c ∈ word, accepts c = true) →
      (∀ consumed c tail, c ≠ stop → onWay (consumed, c :: tail) = []) →
      ∃ more, (lazyWays accepts (word ++ stop :: rest)).flatMap onWay =
        onWay (word, stop :: rest) ++ more
  | [], onWay, _, _, _ => by
      rw [List.nil_append, lazyWays, List.flatMap_cons]
      exact ⟨_, rfl⟩
  | head :: word, onWay, noStop, all, rejects => by
      rw [List.mem_cons, not_or] at noStop
      have accepted : accepts head = true := all head (by simp)
      obtain ⟨more, shape⟩ := flatMap_lazyWays_append word
        (fun way => onWay (head :: way.1, way.2)) noStop.2
        (fun c member => all c (by simp [member]))
        (fun consumed c tail different => rejects (head :: consumed) c tail different)
      refine ⟨more, ?_⟩
      rw [List.cons_append, lazyWays, List.flatMap_cons,
        rejects [] head _ (Ne.symm noStop.1), List.nil_append, if_pos accepted, List.flatMap_map]
      exact shape

/-- A lazy capture before a literal character ends at the first such character
from which the rest of the pattern can consume the text. -/
theorem fullMatch_of_fullMatch_lazyAny {following : String → Matcher β} {stop : Char}
    {word : List Char} {rest : List Char} (noStop : stop ∉ word) (noNewline : '\n' ∉ word)
    (shape : text.toList = word ++ stop :: rest)
    (possible : ∃ value, (value, []) ∈ (following (String.ofList word)).ways rest) {value : β}
    (found : fullMatch (lazyAny >>= fun capture =>
      literal (String.ofList [stop]) >>= fun _ => following capture) text = some value) :
    fullMatch (following (String.ofList word)) (String.ofList rest) = some value := by
  have decomposed : ∃ more, (lazyAny >>= fun capture =>
      literal (String.ofList [stop]) >>= fun _ => following capture).ways text.toList =
        (following (String.ofList word)).ways rest ++ more := by
    obtain ⟨more, ways⟩ := @flatMap_lazyWays_append (β × List Char) (· ≠ '\n') stop rest word
      (fun way => (literal (String.ofList [stop]) >>= fun _ =>
        following (String.ofList way.1)).ways way.2)
      noStop (by
        intro c member
        rw [decide_eq_true_eq]
        rintro rfl
        exact noNewline member) (by
        intro consumed c tail different
        rw [ways_bind]
        simp [literal, Ne.symm different])
    have stopped : (literal (String.ofList [stop])).ways (stop :: rest) = [((), rest)] := by
      simp [literal]
    rw [ways_bind, stopped, List.flatMap_singleton] at ways
    refine ⟨more, ?_⟩
    rw [ways_bind, shape]
    unfold lazyAny
    rw [List.flatMap_map]
    exact ways
  obtain ⟨more, ways⟩ := decomposed
  obtain ⟨other, isPossible⟩ := possible
  unfold fullMatch at found
  rw [ways, List.find?_append] at found
  cases search : ((following (String.ofList word)).ways rest).find? (fun way => way.2 = []) with
  | none =>
    have rejected := List.find?_eq_none.mp search (other, []) isPossible
    simp at rejected
  | some way =>
    rw [search] at found
    have isValue : way.1 = value := by simpa using found
    unfold fullMatch
    rw [String.toList_ofList, search, ← isValue]
    rfl

theorem mem_ways_of_fullMatch_lazyAny {following : String → Matcher β} {stop : Char}
    {word : List Char} {rest : List Char} (noStop : stop ∉ word) (noNewline : '\n' ∉ word)
    (shape : text.toList = word ++ stop :: rest)
    (possible : ∃ value, (value, []) ∈ (following (String.ofList word)).ways rest) {value : β}
    (found : fullMatch (lazyAny >>= fun capture =>
      literal (String.ofList [stop]) >>= fun _ => following capture) text = some value) :
    (value, []) ∈ (following (String.ofList word)).ways rest := by
  have inRest := mem_ways_of_fullMatch
    (fullMatch_of_fullMatch_lazyAny noStop noNewline shape possible found)
  rwa [String.toList_ofList] at inRest

end

end DbBackup.Lib.Backtrack
