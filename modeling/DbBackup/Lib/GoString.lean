import Mathlib.Data.List.Infix
import Mathlib.Data.List.TakeWhile

/-!
Owns the string and path functions of the Go standard library that the
development uses: `strings.HasPrefix`, `HasSuffix`, `TrimSuffix`, `TrimPrefix`,
`Contains`, `Index`, `ReplaceAll`, `ToLower`, `EqualFold`, `TrimSpace`,
`filepath.Base` and `filepath.Ext`.

Go strings are byte strings; every separator and suffix cut here is ASCII, so
cutting at characters cuts at the same bytes. `toLower` folds ASCII letters
only, which is what the keyword tables it is used on need.
-/

set_option linter.all false

namespace DbBackup.Lib.GoString

def hasPrefix (text start : String) : Bool :=
  start.toList.isPrefixOf text.toList

def hasSuffix (text ending : String) : Bool :=
  ending.toList.isSuffixOf text.toList

def trimSuffix (text ending : String) : String :=
  if hasSuffix text ending then
    String.ofList (text.toList.take (text.toList.length - ending.toList.length))
  else text

def trimPrefix (text start : String) : String :=
  if hasPrefix text start then
    String.ofList (text.toList.drop start.toList.length)
  else text

/-- `strings.Index` on characters; `none` where Go returns `-1`. -/
def indexOf (needle : List Char) : List Char → Option Nat
  | [] => if needle = [] then some 0 else none
  | head :: tail =>
    if needle.isPrefixOf (head :: tail) then some 0
    else (indexOf needle tail).map (· + 1)

def contains (text needle : String) : Bool :=
  (indexOf needle.toList text.toList).isSome

/-- `strings.ReplaceAll` for a non-empty `old`; `skip` counts the characters of
a match that are still to be passed over. -/
def replaceChars (old new : List Char) : Nat → List Char → List Char
  | _, [] => []
  | skip + 1, _ :: rest => replaceChars old new skip rest
  | 0, c :: rest =>
    if old.isPrefixOf (c :: rest) then new ++ replaceChars old new (old.length - 1) rest
    else c :: replaceChars old new 0 rest

def replaceAll (text old new : String) : String :=
  String.ofList (replaceChars old.toList new.toList 0 text.toList)

def toLower (text : String) : String :=
  String.ofList (text.toList.map Char.toLower)

/-- `unicode.ToUpper`, as far as a text in ASCII can tell: two letters outside
ASCII have their upper case in it. -/
def upperChar (c : Char) : Char :=
  if c = '\u0131' then 'I' else if c = '\u017f' then 'S' else c.toUpper

def toUpper (text : String) : String :=
  String.ofList (text.toList.map upperChar)

def foldChar (c : Char) : Char :=
  if c = '\u017f' then 's' else if c = '\u212a' then 'k' else c.toLower

/-- `strings.EqualFold` against an ASCII word; the two characters outside ASCII
that fold to ASCII letters are `ſ` and the Kelvin sign. -/
def equalFold (text word : String) : Bool :=
  text.toList.map foldChar = word.toList.map foldChar

/-- `unicode.IsSpace`. -/
def isSpace (c : Char) : Bool :=
  c = ' ' || c = '\t' || c = '\n' || c = '\x0b' || c = '\x0c' || c = '\r' ||
    c = '\u0085' || c = '\u00a0' || c = '\u1680' || ('\u2000' ≤ c && c ≤ '\u200a') ||
    c = '\u2028' || c = '\u2029' || c = '\u202f' || c = '\u205f' || c = '\u3000'

def trimSpace (text : String) : String :=
  String.ofList (((text.toList.dropWhile isSpace).reverse.dropWhile isSpace).reverse)

/-- `filepath.Ext`: the text from the last dot of the last path element. -/
def filepathExt (path : String) : String :=
  let reversed := path.toList.reverse
  let word := reversed.takeWhile fun c => c ≠ '.' && c ≠ '/'
  match reversed.drop word.length with
  | '.' :: _ => String.ofList ('.' :: word.reverse)
  | _ => ""

/-- `filepath.Base`: the last path element, `.` for the empty path and `/` for
a path of slashes. -/
def filepathBase (path : String) : String :=
  if path = "" then "."
  else
    let trimmed := path.toList.reverse.dropWhile (· = '/')
    let element := (trimmed.takeWhile (· ≠ '/')).reverse
    if element = [] then "/" else String.ofList element

/-! ### Beginnings -/

theorem hasPrefix_iff (text start : String) :
    hasPrefix text start = true ↔ ∃ rest, text = start ++ rest := by
  unfold hasPrefix
  rw [List.isPrefixOf_iff_prefix]
  constructor
  · rintro ⟨rest, same⟩
    refine ⟨String.ofList rest, ?_⟩
    apply String.toList_injective
    simp [same]
  · rintro ⟨rest, rfl⟩
    exact ⟨rest.toList, by simp⟩

@[simp] theorem hasPrefix_append (start rest : String) : hasPrefix (start ++ rest) start = true :=
  (hasPrefix_iff _ _).mpr ⟨rest, rfl⟩

@[simp] theorem trimPrefix_append (start rest : String) :
    trimPrefix (start ++ rest) start = rest := by
  unfold trimPrefix
  rw [hasPrefix_append, if_pos rfl]
  apply String.toList_injective
  simp

theorem indexOf_isSome_iff {needle text : List Char} :
    (indexOf needle text).isSome = true ↔ needle <:+: text := by
  induction text with
  | nil =>
    rw [indexOf, List.infix_nil]
    split
    · simp_all
    · simp_all
  | cons head tail ih =>
    rw [indexOf, List.infix_cons_iff, ← ih, ← List.isPrefixOf_iff_prefix]
    split
    · rename_i begins
      simp [begins]
    · rename_i notHere
      simp [notHere]

theorem contains_iff_piece {text needle : String} :
    contains text needle = true ↔ needle.toList <:+: text.toList :=
  indexOf_isSome_iff

theorem contains_append (start needle rest : String) :
    contains (start ++ needle ++ rest) needle = true := by
  rw [contains_iff_piece, String.toList_append, String.toList_append]
  exact List.infix_append ..

theorem contains_trans {text middle needle : String} (outer : contains text middle = true)
    (inner : contains middle needle = true) : contains text needle = true :=
  contains_iff_piece.mpr ((contains_iff_piece.mp inner).trans (contains_iff_piece.mp outer))

/-- A needle is not found where its first character does not stand. -/
theorem indexOf_append_of_not_mem {c : Char} {needle word : List Char} (absent : c ∉ word)
    (rest : List Char) :
    indexOf (c :: needle) (word ++ rest) = (indexOf (c :: needle) rest).map (· + word.length) := by
  induction word with
  | nil => simp
  | cons head word ih =>
    rw [List.mem_cons, not_or] at absent
    have notHere : (c :: needle).isPrefixOf (head :: (word ++ rest)) = false := by
      simp [List.isPrefixOf, absent.1]
    rw [List.cons_append, indexOf, notHere, ih absent.2, Option.map_map]
    simp [Function.comp_def, Nat.add_assoc]

/-- Replacing a single character works character by character. -/
theorem replaceChars_char (old : Char) (new text : List Char) :
    replaceChars [old] new 0 text = text.flatMap fun c => if c = old then new else [c] := by
  induction text with
  | nil => simp [replaceChars]
  | cons c rest ih =>
    by_cases isOld : c = old
    · simp [replaceChars, isOld, ih]
    · simp [replaceChars, isOld, Ne.symm isOld, ih]

theorem toList_replaceAll_char (text : String) (old : Char) (new : List Char) :
    (replaceAll text (String.ofList [old]) (String.ofList new)).toList =
      text.toList.flatMap fun c => if c = old then new else [c] := by
  unfold replaceAll
  simp only [String.toList_ofList, replaceChars_char]

/-! ### Suffixes -/

theorem hasSuffix_iff (text ending : String) :
    hasSuffix text ending = true ↔ ∃ start, text = start ++ ending := by
  unfold hasSuffix
  rw [List.isSuffixOf_iff_suffix]
  constructor
  · rintro ⟨start, same⟩
    refine ⟨String.ofList start, ?_⟩
    apply String.toList_injective
    simp [same]
  · rintro ⟨start, rfl⟩
    exact ⟨start.toList, by simp⟩

@[simp] theorem hasSuffix_append (start ending : String) :
    hasSuffix (start ++ ending) ending = true :=
  (hasSuffix_iff _ _).mpr ⟨start, rfl⟩

@[simp] theorem trimSuffix_append (start ending : String) :
    trimSuffix (start ++ ending) ending = start := by
  unfold trimSuffix
  rw [hasSuffix_append, if_pos rfl]
  apply String.toList_injective
  simp

theorem trimSuffix_of_not_hasSuffix {text ending : String}
    (absent : hasSuffix text ending = false) : trimSuffix text ending = text := by
  simp [trimSuffix, absent]

/-- Cutting a non-empty ending off shortens the text. -/
theorem trimSuffix_cases (text ending : String) :
    trimSuffix text ending = text ∨ text = trimSuffix text ending ++ ending := by
  by_cases ends : hasSuffix text ending = true
  · right
    obtain ⟨start, rfl⟩ := (hasSuffix_iff _ _).mp ends
    rw [trimSuffix_append]
  · exact .inl (trimSuffix_of_not_hasSuffix (by simpa using ends))

theorem hasSuffix_of_trimSuffix_eq {text ending : String} (notEmpty : ending ≠ "")
    (same : trimSuffix text ending = text) : hasSuffix text ending = false := by
  by_contra present
  rw [Bool.not_eq_false] at present
  obtain ⟨start, rfl⟩ := (hasSuffix_iff _ _).mp present
  rw [trimSuffix_append] at same
  have sameLength := congrArg (fun s => s.toList.length) same
  simp only [String.toList_append, List.length_append] at sameLength
  have noChars : ending.toList = [] := List.length_eq_zero_iff.mp (by omega)
  exact notEmpty (String.toList_injective noChars)

/-- Two words that end in the same text agree on their common length, so a
suffix test on a known ending is decided by that ending. -/
theorem hasSuffix_append_eq (start known ending : String)
    (fits : ending.toList.length ≤ known.toList.length) :
    hasSuffix (start ++ known) ending = hasSuffix known ending := by
  unfold hasSuffix
  apply Bool.eq_iff_iff.mpr
  rw [List.isSuffixOf_iff_suffix, List.isSuffixOf_iff_suffix, String.toList_append]
  constructor
  · intro suffix
    exact List.suffix_of_suffix_length_le suffix (List.suffix_append _ _) fits
  · intro suffix
    exact suffix.trans (List.suffix_append _ _)

theorem trimSuffix_isPrefix (text ending : String) :
    (trimSuffix text ending).toList <+: text.toList := by
  rcases trimSuffix_cases text ending with same | cut
  · rw [same]
  · exact ⟨ending.toList, by rw [← String.toList_append, ← cut]⟩

/-- Cutting an ending off leaves a beginning alone that the ending cannot reach
into. -/
theorem trimSuffix_append_left {start rest ending : String}
    (inRest : hasSuffix (start ++ rest) ending = true → hasSuffix rest ending = true) :
    trimSuffix (start ++ rest) ending = start ++ trimSuffix rest ending := by
  by_cases ends : hasSuffix rest ending = true
  · obtain ⟨word, rfl⟩ := (hasSuffix_iff _ _).mp ends
    rw [← String.append_assoc, trimSuffix_append, trimSuffix_append]
  · rw [trimSuffix_of_not_hasSuffix (by simpa using mt inRest ends),
      trimSuffix_of_not_hasSuffix (by simpa using ends)]

theorem hasSuffix_append_cases {start rest ending : String}
    (ends : hasSuffix (start ++ rest) ending = true) :
    hasSuffix rest ending = true ∨
      ∃ word, word ≠ [] ∧ word <:+ start.toList ∧ ending.toList = word ++ rest.toList := by
  unfold hasSuffix at ends ⊢
  rw [List.isSuffixOf_iff_suffix] at ends ⊢
  rw [String.toList_append] at ends
  rcases List.suffix_or_suffix_of_suffix ends (List.suffix_append _ _) with inside | outside
  · exact .inl inside
  · obtain ⟨word, shape⟩ := outside
    cases word with
    | nil => exact .inl ⟨[], by simpa using shape.symm⟩
    | cons head tail =>
      refine .inr ⟨head :: tail, by simp, ?_, shape.symm⟩
      rw [← shape] at ends
      exact List.suffix_append_self_iff.mp ends

theorem filepathExt_append (start : String) (word : List Char)
    (plain : ∀ c ∈ word, c ≠ '.' ∧ c ≠ '/') :
    filepathExt (start ++ String.ofList ('.' :: word)) = String.ofList ('.' :: word) := by
  have reversed : (start ++ String.ofList ('.' :: word)).toList.reverse =
      word.reverse ++ '.' :: start.toList.reverse := by
    simp
  have taken : (word.reverse ++ '.' :: start.toList.reverse).takeWhile
      (fun c => c ≠ '.' && c ≠ '/') = word.reverse := by
    rw [List.takeWhile_append_of_pos]
    · simp
    · intro c member
      have both := plain c (List.mem_reverse.mp member)
      simp [both.1, both.2]
  unfold filepathExt
  simp only [reversed, taken, List.drop_left, List.reverse_reverse]

/-! ### The last path element -/

variable {path : String}

/-- A path with a character that is no slash is its last element between a part
that is empty or ends in a slash and a run of slashes. -/
theorem filepathBase_parts (named : ∃ c ∈ path.toList, c ≠ '/') :
    ∃ start slashes, path.toList = start ++ (filepathBase path).toList ++ slashes ∧
      '/' ∉ (filepathBase path).toList ∧ (filepathBase path).toList ≠ [] ∧
      (start = [] ∨ start.getLast? = some '/') ∧ ∀ c ∈ slashes, c = '/' := by
  obtain ⟨c, member, notSlash⟩ := named
  have notEmpty : path ≠ "" := by
    rintro rfl
    simp at member
  let trimmed := path.toList.reverse.dropWhile (· = '/')
  have slashesFirst := List.takeWhile_append_dropWhile (p := fun c => decide (c = '/'))
    (l := path.toList.reverse)
  have elementFirst := List.takeWhile_append_dropWhile (p := fun c => decide (c ≠ '/'))
    (l := trimmed)
  have elementNotEmpty : (trimmed.takeWhile (· ≠ '/')).reverse ≠ [] := by
    rw [ne_eq, List.reverse_eq_nil_iff]
    have stops := List.head?_dropWhile_not (fun c => decide (c = '/')) path.toList.reverse
    cases chars : trimmed with
    | nil =>
      have allSlashes := List.dropWhile_eq_nil_iff.mp chars
      exact absurd (by simpa using allSlashes c (List.mem_reverse.mpr member)) notSlash
    | cons first rest =>
      rw [show path.toList.reverse.dropWhile (fun c => decide (c = '/')) = first :: rest from
        chars] at stops
      simp at stops
      simp [stops]
  have base : (filepathBase path).toList = (trimmed.takeWhile (· ≠ '/')).reverse := by
    unfold filepathBase
    rw [if_neg notEmpty]
    dsimp only
    rw [if_neg elementNotEmpty]
    simp [trimmed]
  refine ⟨(trimmed.dropWhile (· ≠ '/')).reverse,
    (path.toList.reverse.takeWhile (· = '/')).reverse, ?_, ?_, ?_, ?_, ?_⟩
  · rw [base, ← List.reverse_append, elementFirst, ← List.reverse_append, slashesFirst,
      List.reverse_reverse]
  · rw [base, List.mem_reverse]
    intro inElement
    have plain := List.all_eq_true.mp List.all_takeWhile '/' inElement
    simp at plain
  · rw [base]
    exact elementNotEmpty
  · have stops := List.head?_dropWhile_not (fun c => decide (c ≠ '/')) trimmed
    cases dropped : trimmed.dropWhile (fun c => decide (c ≠ '/')) with
    | nil => exact .inl (by simp)
    | cons first rest =>
      rw [dropped] at stops
      refine .inr ?_
      rw [List.getLast?_reverse]
      simpa using stops
  · intro c inSlashes
    have slash := List.all_eq_true.mp List.all_takeWhile c (List.mem_reverse.mp inSlashes)
    simpa using slash

/-- The last element is known from such a split. -/
theorem filepathBase_of_parts {start base slashes : List Char}
    (shape : path.toList = start ++ base ++ slashes) (noSlash : '/' ∉ base) (notEmpty : base ≠ [])
    (folder : start = [] ∨ start.getLast? = some '/') (allSlashes : ∀ c ∈ slashes, c = '/') :
    (filepathBase path).toList = base := by
  have pathNotEmpty : path ≠ "" := by
    rintro rfl
    simp [notEmpty] at shape
  have slashesDropped : slashes.reverse.dropWhile (· = '/') = [] := by
    rw [List.dropWhile_eq_nil_iff]
    intro c member
    simpa using allSlashes c (List.mem_reverse.mp member)
  have baseKept : (base.reverse ++ start.reverse).dropWhile (· = '/') =
      base.reverse ++ start.reverse := by
    cases chars : base.reverse with
    | nil => exact absurd (List.reverse_eq_nil_iff.mp chars) notEmpty
    | cons first rest =>
      have inBase : first ∈ base := List.mem_reverse.mp (by simp [chars])
      have notSlash : first ≠ '/' := by
        rintro rfl
        exact noSlash inBase
      simp [notSlash]
  have trimmed : path.toList.reverse.dropWhile (· = '/') = base.reverse ++ start.reverse := by
    rw [shape, List.reverse_append, List.reverse_append, List.dropWhile_append, slashesDropped]
    simpa using baseKept
  have startStops : start.reverse.takeWhile (· ≠ '/') = [] := by
    rcases folder with rfl | slash
    · rfl
    · obtain ⟨rest, reversed⟩ := List.head?_eq_some_iff.mp
        ((List.head?_reverse ..).trans slash)
      simp [reversed]
  have element : (base.reverse ++ start.reverse).takeWhile (· ≠ '/') = base.reverse := by
    rw [List.takeWhile_append_of_pos, startStops, List.append_nil]
    intro c member
    rw [decide_eq_true_eq]
    rintro rfl
    exact noSlash (List.mem_reverse.mp member)
  unfold filepathBase
  rw [if_neg pathNotEmpty]
  simp only [trimmed, element, List.reverse_reverse]
  rw [if_neg notEmpty, String.toList_ofList]

/-- A path that does not end in a slash is its last element after a part that
is empty or ends in a slash. -/
theorem filepathBase_split (notEmpty : path ≠ "") (last : path.toList.getLast? ≠ some '/') :
    ∃ start, path.toList = start ++ (filepathBase path).toList ∧
      '/' ∉ (filepathBase path).toList ∧ (start = [] ∨ start.getLast? = some '/') := by
  have charsNotEmpty : path.toList ≠ [] := by
    intro noChars
    exact notEmpty (String.toList_injective noChars)
  have named : ∃ c ∈ path.toList, c ≠ '/' := by
    refine ⟨path.toList.getLast charsNotEmpty, List.getLast_mem _, ?_⟩
    intro isSlash
    exact last (by rw [List.getLast?_eq_some_getLast charsNotEmpty, isSlash])
  obtain ⟨start, slashes, shape, noSlash, -, folder, allSlashes⟩ := filepathBase_parts named
  have noSlashes : slashes = [] := by
    by_contra some
    apply last
    rw [shape, List.getLast?_append_of_ne_nil _ some, List.getLast?_eq_some_getLast some,
      allSlashes _ (List.getLast_mem some)]
  rw [noSlashes, List.append_nil] at shape
  exact ⟨start, shape, noSlash, folder⟩

theorem filepathBase_eq_self (notEmpty : path ≠ "") (noSlash : '/' ∉ path.toList) :
    filepathBase path = path := by
  have last : path.toList.getLast? ≠ some '/' := by
    intro isLast
    exact noSlash (List.mem_of_getLast? isLast)
  obtain ⟨start, shape, -, empty | slash⟩ := filepathBase_split notEmpty last
  · rw [empty, List.nil_append] at shape
    exact (String.toList_injective shape).symm
  · have inStart := List.mem_of_getLast? slash
    rw [shape] at noSlash
    exact absurd (List.mem_append_left _ inStart) noSlash

/-- An ending without a slash lies in the last element, if it is there at all. -/
theorem hasSuffix_of_append_slash {folder path ending : String} (noSlash : '/' ∉ ending.toList)
    (ends : hasSuffix (folder ++ "/" ++ path) ending = true) : hasSuffix path ending = true := by
  unfold hasSuffix at ends ⊢
  rw [List.isSuffixOf_iff_suffix] at ends ⊢
  have pathEnds : '/' :: path.toList <:+ (folder ++ "/" ++ path).toList :=
    ⟨folder.toList, by simp⟩
  rcases List.suffix_or_suffix_of_suffix ends pathEnds with inside | outside
  · rcases List.suffix_cons_iff.mp inside with whole | inPath
    · rw [whole] at noSlash
      exact absurd List.mem_cons_self noSlash
    · exact inPath
  · exact absurd (outside.subset List.mem_cons_self) noSlash

private theorem takeWhile_append_slash (chars rest : List Char) :
    (chars ++ '/' :: rest).takeWhile (· ≠ '/') = chars.takeWhile (· ≠ '/') := by
  induction chars with
  | nil => simp
  | cons head tail ih =>
    by_cases slash : head = '/'
    · simp [slash]
    · simpa [slash] using ih

/-- A folder in front of a path leaves its last element alone. -/
theorem filepathBase_append (folder : String) (named : ∃ c ∈ path.toList, c ≠ '/') :
    filepathBase (folder ++ "/" ++ path) = filepathBase path := by
  obtain ⟨c, member, notSlash⟩ := named
  have notEmpty : path ≠ "" := by
    rintro rfl
    simp at member
  have joinedNotEmpty : folder ++ "/" ++ path ≠ "" := by
    intro empty
    have noChars := congrArg String.toList empty
    simp at noChars
  have reversed : (folder ++ "/" ++ path).toList.reverse =
      path.toList.reverse ++ ('/' :: folder.toList.reverse) := by
    simp
  have stops : path.toList.reverse.dropWhile (· = '/') ≠ [] := by
    intro allSlashes
    rw [List.dropWhile_eq_nil_iff] at allSlashes
    exact notSlash (by simpa using allSlashes c (List.mem_reverse.mpr member))
  have trimmed : (folder ++ "/" ++ path).toList.reverse.dropWhile (· = '/') =
      path.toList.reverse.dropWhile (· = '/') ++ ('/' :: folder.toList.reverse) := by
    rw [reversed, List.dropWhile_append]
    simp [stops]
  unfold filepathBase
  rw [if_neg notEmpty, if_neg joinedNotEmpty]
  simp only [trimmed, takeWhile_append_slash]

/-- What `trimSpace` takes off at both ends. -/
theorem trimSpace_parts (text : String) : ∃ before after : String,
    text = before ++ trimSpace text ++ after ∧
      text.toList.dropWhile isSpace = (trimSpace text).toList ++ after.toList := by
  have right : text.toList.dropWhile isSpace = (trimSpace text).toList ++
      ((text.toList.dropWhile isSpace).reverse.takeWhile isSpace).reverse := by
    unfold trimSpace
    rw [String.toList_ofList, ← List.reverse_append, List.takeWhile_append_dropWhile,
      List.reverse_reverse]
  refine ⟨String.ofList (text.toList.takeWhile isSpace),
    String.ofList ((text.toList.dropWhile isSpace).reverse.takeWhile isSpace).reverse, ?_, ?_⟩
  · apply String.toList_injective
    rw [String.toList_append, String.toList_append, String.toList_ofList, String.toList_ofList,
      List.append_assoc, ← right, List.takeWhile_append_dropWhile]
  · rw [String.toList_ofList]
    exact right

variable {text : String}

/-- Nothing is taken off a text with no blank at its ends. -/
theorem trimSpace_of_ends (first : ∀ c ∈ text.toList.head?, isSpace c = false)
    (last : ∀ c ∈ text.toList.getLast?, isSpace c = false) : trimSpace text = text := by
  have kept {chars : List Char} (begins : ∀ c ∈ chars.head?, isSpace c = false) :
      chars.dropWhile isSpace = chars := by
    cases chars with
    | nil => rfl
    | cons c rest => rw [List.dropWhile_cons_of_neg (by simp [begins c rfl])]
  unfold trimSpace
  rw [kept first, kept (by simpa using last), List.reverse_reverse, String.ofList_toList]

theorem trimSpace_of_noBlank (noBlank : ∀ c ∈ text.toList, isSpace c = false) :
    trimSpace text = text :=
  trimSpace_of_ends (fun c first => noBlank c (List.mem_of_mem_head? first))
    fun c last => noBlank c (List.mem_of_mem_getLast? last)

theorem trimSpace_eq_self
    (sameSize : (trimSpace text).utf8ByteSize = text.utf8ByteSize) : trimSpace text = text := by
  obtain ⟨before, after, shape, -⟩ := trimSpace_parts text
  have sizes := congrArg String.utf8ByteSize shape
  rw [String.utf8ByteSize_append, String.utf8ByteSize_append] at sizes
  have noBefore : before = "" := String.utf8ByteSize_eq_zero_iff.mp (by omega)
  have noAfter : after = "" := String.utf8ByteSize_eq_zero_iff.mp (by omega)
  rw [noBefore, noAfter, String.empty_append, String.append_empty] at shape
  exact shape.symm

end DbBackup.Lib.GoString
