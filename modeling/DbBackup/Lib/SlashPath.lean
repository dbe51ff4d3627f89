import DbBackup.Lib.Delimited
import Mathlib.Data.List.DropRight

/-!
Owns paths with slashes as Go computes with them: cutting a beginning off,
trimming slashes, and `path.Clean` and `path.Join`.

A path is solid if it has no empty segment. Contract: a trimmed path is what
stands between its slashes (`trimSlashes_of_bare`), and a path of names is clean
(`clean_of_names`).
-/

set_option linter.all false

namespace DbBackup.Lib.SlashPath

open Lib.Delimited

/-- `strings.TrimPrefix`. -/
def cutStart (start text : List Char) : List Char :=
  if start.isPrefixOf text then text.drop start.length else text

/-- `strings.Trim(text, "/")`. -/
def trimSlashes (text : List Char) : List Char :=
  (text.dropWhile (· = '/')).rdropWhile (· = '/')

def Solid (text : List Char) : Prop := [] ∉ text.splitOn '/'

instance (text : List Char) : Decidable (Solid text) := inferInstanceAs (Decidable (_ ∉ _))

/-- Neither begins nor ends in a slash. -/
def Bare (text : List Char) : Prop := text.head? ≠ some '/' ∧ text.getLast? ≠ some '/'

theorem cutStart_append (start rest : List Char) : cutStart start (start ++ rest) = rest := by
  simp [cutStart]

theorem cutStart_of_not_prefix {start text : List Char} (other : ¬ start <+: text) :
    cutStart start text = text := by
  rw [cutStart, if_neg]
  rwa [List.isPrefixOf_iff_prefix]

theorem cutStart_cases (start text : List Char) :
    text = start ++ cutStart start text ∨ (¬ start <+: text ∧ cutStart start text = text) := by
  by_cases starts : start <+: text
  · obtain ⟨rest, rfl⟩ := starts
    exact .inl (by rw [cutStart_append])
  · exact .inr ⟨starts, cutStart_of_not_prefix starts⟩

/-! ### Solid paths -/

theorem not_solid_nil : ¬ Solid [] := by decide

theorem solid_append_slash {first second : List Char} :
    Solid (first ++ '/' :: second) ↔ Solid first ∧ Solid second := by
  unfold Solid
  rw [List.splitOn_append_cons_self, List.mem_append, not_or]

variable {text : List Char}

theorem Solid.bare (solid : Solid text) : Bare text := by
  refine ⟨fun head => ?_, fun last => ?_⟩
  · obtain ⟨rest, rfl⟩ := List.head?_eq_some_iff.mp head
    exact not_solid_nil (@solid_append_slash [] rest |>.mp solid).1
  · obtain ⟨start, rfl⟩ := List.getLast?_eq_some_iff.mp last
    exact not_solid_nil (solid_append_slash.mp solid).2

theorem Solid.ne_nil (solid : Solid text) : text ≠ [] := by
  rintro rfl
  exact not_solid_nil solid

/-! ### Trimming -/

theorem rdropWhile_slashes (text : List Char) (count : Nat) :
    (text ++ List.replicate count '/').rdropWhile (· = '/') = text.rdropWhile (· = '/') := by
  induction count with
  | zero => simp
  | succ count ih =>
    rw [List.replicate_succ', ← List.append_assoc, List.rdropWhile_concat_pos _ _ _ (by simp),
      ih]

theorem dropWhile_slashes (count : Nat) (text : List Char) :
    (List.replicate count '/' ++ text).dropWhile (· = '/') = text.dropWhile (· = '/') :=
  List.dropWhile_append_of_pos (by simp)

theorem slashes_of_all (slashes : ∀ c ∈ text, c = '/') : text = List.replicate text.length '/' :=
  List.eq_replicate_of_mem slashes

/-- What stands between slashes. -/
theorem trimSlashes_of_bare (bare : Bare text) (before after : Nat) :
    trimSlashes (List.replicate before '/' ++ text ++ List.replicate after '/') = text := by
  unfold trimSlashes
  rw [List.append_assoc, dropWhile_slashes]
  cases text with
  | nil =>
    have dropped := dropWhile_slashes after []
    rw [List.append_nil, List.dropWhile_nil] at dropped
    rw [List.nil_append, dropped, List.rdropWhile_nil]
  | cons c rest =>
    have notSlash : c ≠ '/' := by simpa using bare.1
    rw [List.cons_append, List.dropWhile_cons, if_neg (by simpa using notSlash),
      ← List.cons_append, rdropWhile_slashes, List.rdropWhile_eq_self_iff]
    intro notEmpty isSlash
    apply bare.2
    rw [List.getLast?_eq_some_getLast notEmpty, decide_eq_true_eq.mp isSlash]

theorem trimSlashes_eq_self (bare : Bare text) : trimSlashes text = text := by
  simpa using trimSlashes_of_bare bare 0 0

theorem trimSlashes_shape (text : List Char) : Bare (trimSlashes text) ∧ ∃ before after,
      text = List.replicate before '/' ++ trimSlashes text ++ List.replicate after '/' := by
  have start : text.takeWhile (· = '/') = List.replicate (text.takeWhile (· = '/')).length '/' :=
    slashes_of_all fun c member => by simpa using List.mem_takeWhile_imp member
  have ending : (text.dropWhile (· = '/')).rtakeWhile (· = '/') =
      List.replicate ((text.dropWhile (· = '/')).rtakeWhile (· = '/')).length '/' :=
    slashes_of_all fun c member => by simpa using List.mem_rtakeWhile_imp member
  refine ⟨⟨fun head => ?_, fun last => ?_⟩, (text.takeWhile (· = '/')).length,
    ((text.dropWhile (· = '/')).rtakeWhile (· = '/')).length, ?_⟩
  · have starts : trimSlashes text <+: text.dropWhile (· = '/') := List.rdropWhile_prefix _ _
    obtain ⟨rest, shape⟩ := List.head?_eq_some_iff.mp head
    rw [shape] at starts
    obtain ⟨more, dropped⟩ := starts
    have notSlash := List.head?_dropWhile_not (· = '/') text
    rw [← dropped] at notSlash
    simp at notSlash
  · obtain ⟨rest, shape⟩ := List.getLast?_eq_some_iff.mp last
    have notEmpty : trimSlashes text ≠ [] := by simp [shape]
    have notSlash := List.rdropWhile_last_not (fun c => decide (c = '/')) _ notEmpty
    apply notSlash
    have isLast : (trimSlashes text).getLast notEmpty = '/' :=
      Option.some.inj ((List.getLast?_eq_some_getLast notEmpty).symm.trans last)
    exact decide_eq_true isLast
  · rw [← start, ← ending, List.append_assoc, trimSlashes, List.rdropWhile_append_rtakeWhile,
      List.takeWhile_append_dropWhile]

/-! ### Clean paths -/

/-- One segment of `path.Clean`; the segments that stay are on the stack. -/
def cleanStep (rooted : Bool) (stack : List (List Char)) (segment : List Char) :
    List (List Char) :=
  if segment = [] ∨ segment = ['.'] then stack
  else if segment = ['.', '.'] then
    match stack with
    | top :: below => if top = ['.', '.'] then segment :: stack else below
    | [] => if rooted then [] else [segment]
  else segment :: stack

def clean (text : List Char) : List Char :=
  let rooted := text.head? = some '/'
  let body := ['/'].intercalate ((text.splitOn '/').foldl (cleanStep rooted) []).reverse
  if rooted then '/' :: body else if body = [] then ['.'] else body

/-- `path.Join` of two elements. -/
def join (first second : List Char) : List Char :=
  match [first, second].filter (· ≠ []) with
  | [] => []
  | parts => clean (['/'].intercalate parts)

def IsName (segment : List Char) : Prop :=
  segment ≠ [] ∧ segment ≠ ['.'] ∧ segment ≠ ['.', '.']

instance (segment : List Char) : Decidable (IsName segment) :=
  inferInstanceAs (Decidable (_ ∧ _))

/-- Every segment is a name. -/
def OfNames (text : List Char) : Prop := ∀ segment ∈ text.splitOn '/', IsName segment

instance (text : List Char) : Decidable (OfNames text) :=
  inferInstanceAs (Decidable (∀ segment ∈ text.splitOn '/', IsName segment))

theorem OfNames.solid (names : OfNames text) : Solid text :=
  fun member => (names [] member).1 rfl

theorem ofNames_append_slash {first second : List Char} :
    OfNames (first ++ '/' :: second) ↔ OfNames first ∧ OfNames second := by
  unfold OfNames
  rw [List.splitOn_append_cons_self, List.forall_mem_append]

variable (rooted : Bool)

/-- What one segment does to the stack: nothing, or it is put on it, or the top is
taken off. -/
theorem cleanStep_cases (stack : List (List Char)) (segment : List Char) :
    cleanStep rooted stack segment = stack ∨
      (cleanStep rooted stack segment = segment :: stack ∧
        (IsName segment ∨ (segment = ['.', '.'] ∧ ∀ top ∈ stack.head?, top = ['.', '.']))) ∨
      ∃ top, stack = top :: cleanStep rooted stack segment := by
  unfold cleanStep
  by_cases blank : segment = [] ∨ segment = ['.']
  · exact .inl (if_pos blank)
  rw [if_neg blank]
  rw [not_or] at blank
  by_cases dots : segment = ['.', '.']
  · rw [if_pos dots]
    cases stack with
    | nil =>
      cases rooted with
      | true => exact .inl rfl
      | false => exact .inr (.inl ⟨rfl, .inr ⟨dots, by simp⟩⟩)
    | cons top below =>
      by_cases topDots : top = ['.', '.']
      · exact .inr (.inl ⟨if_pos topDots, .inr ⟨dots, by simpa using topDots⟩⟩)
      · exact .inr (.inr ⟨top, by simp [topDots]⟩)
  · rw [if_neg dots]
    exact .inr (.inl ⟨rfl, .inl ⟨blank.1, blank.2, dots⟩⟩)

theorem cleanStep_blank (stack : List (List Char)) : cleanStep rooted stack [] = stack := by
  simp [cleanStep]

theorem cleanStep_name (stack : List (List Char)) {segment : List Char}
    (name : IsName segment) : cleanStep rooted stack segment = segment :: stack := by
  obtain ⟨notEmpty, notDot, notDots⟩ := name
  simp [cleanStep, notEmpty, notDot, notDots]

variable {segments : List (List Char)}

/-- Without dot segments only the empty segments go. -/
theorem foldl_cleanStep_dotless
    (dotless : ∀ segment ∈ segments, segment = [] ∨ IsName segment) (stack : List (List Char)) :
    segments.foldl (cleanStep rooted) stack = (segments.filter (· ≠ [])).reverse ++ stack := by
  induction segments generalizing stack with
  | nil => rfl
  | cons segment segments ih =>
    have rest := ih (List.forall_mem_cons.mp dotless).2
    rw [List.foldl_cons, rest]
    rcases dotless segment List.mem_cons_self with rfl | name
    · rw [cleanStep_blank, List.filter_cons_of_neg (by simp)]
    · rw [cleanStep_name rooted stack name, List.filter_cons_of_pos (by simpa using name.1)]
      simp

theorem foldl_cleanStep_names
    (names : ∀ segment ∈ segments, IsName segment) (stack : List (List Char)) :
    segments.foldl (cleanStep rooted) stack = segments.reverse ++ stack := by
  rw [foldl_cleanStep_dotless rooted fun segment member => .inr (names segment member),
    List.filter_eq_self.mpr fun segment member => by simpa using (names segment member).1]

theorem clean_of_names (names : OfNames text) : clean text = text := by
  have notRooted := names.solid.bare.1
  unfold clean
  dsimp only
  rw [foldl_cleanStep_names _ names, List.append_nil, List.reverse_reverse,
    List.intercalate_splitOn, if_neg (by simpa using notRooted), if_neg names.solid.ne_nil]

theorem join_nil_left (notEmpty : text ≠ []) : join [] text = clean text := by
  simp [join, notEmpty]

theorem join_nil_right (notEmpty : text ≠ []) : join text [] = clean text := by
  simp [join, notEmpty]

theorem join_of_ne {first second : List Char} (notEmpty : first ≠ []) (more : second ≠ []) :
    join first second = clean (first ++ '/' :: second) := by
  simp [join, notEmpty, more, List.intercalate_cons_cons]

/-! ### What cleaning leaves -/

/-- The length of the segments with a slash behind each. -/
def weight (segments : List (List Char)) : Nat := (segments.map (·.length + 1)).sum

@[simp] theorem weight_nil : weight [] = 0 := rfl

@[simp] theorem weight_cons (segment : List Char) (segments : List (List Char)) :
    weight (segment :: segments) = segment.length + 1 + weight segments := rfl

theorem weight_reverse (segments : List (List Char)) :
    weight segments.reverse = weight segments := by
  unfold weight
  rw [List.map_reverse, List.sum_reverse]

theorem length_intercalate (notEmpty : segments ≠ []) :
    (['/'].intercalate segments).length + 1 = weight segments := by
  induction segments with
  | nil => exact absurd rfl notEmpty
  | cons segment rest ih =>
    cases rest with
    | nil => simp
    | cons next others =>
      have later := ih (List.cons_ne_nil _ _)
      rw [weight_cons, ← later, List.intercalate_cons_cons]
      simp only [List.length_append, List.length_singleton]
      omega

theorem weight_splitOn (text : List Char) : weight (text.splitOn '/') = text.length + 1 := by
  rw [← length_intercalate (List.splitOn_ne_nil _ _), List.intercalate_splitOn]

/-- The stack holds no more than was read, and as much only if every segment was
put on it. -/
theorem foldl_cleanStep_weight (segments stack : List (List Char)) :
    weight (segments.foldl (cleanStep rooted) stack) ≤ weight stack + weight segments ∧
      (weight stack + weight segments ≤ weight (segments.foldl (cleanStep rooted) stack) →
        segments.foldl (cleanStep rooted) stack = segments.reverse ++ stack) := by
  induction segments generalizing stack with
  | nil => exact ⟨Nat.le_refl _, fun _ => rfl⟩
  | cons segment segments ih =>
    obtain ⟨bound, full⟩ := ih (cleanStep rooted stack segment)
    rw [List.foldl_cons, weight_cons]
    rcases cleanStep_cases rooted stack segment with same | ⟨pushed, -⟩ | ⟨top, popped⟩
    · rw [same] at bound full ⊢
      exact ⟨by omega, fun enough => by omega⟩
    · rw [pushed, weight_cons] at bound full
      rw [pushed]
      refine ⟨by omega, fun enough => ?_⟩
      rw [full (by omega)]
      simp
    · have lighter : weight stack =
          top.length + 1 + weight (cleanStep rooted stack segment) := by
        conv_lhs => rw [popped]
        rfl
      exact ⟨by omega, fun enough => by omega⟩

theorem mem_foldl_cleanStep {rooted : Bool} {segments stack : List (List Char)}
    {segment : List Char} (member : segment ∈ segments.foldl (cleanStep rooted) stack) :
    segment ∈ stack ∨ (segment ∈ segments ∧ segment ≠ []) := by
  induction segments generalizing stack with
  | nil => exact .inl member
  | cons first segments ih =>
    rcases ih member with inStack | ⟨later, notEmpty⟩
    · rcases cleanStep_cases rooted stack first with same | ⟨pushed, kind⟩ | ⟨top, popped⟩
      · rw [same] at inStack
        exact .inl inStack
      · rw [pushed, List.mem_cons] at inStack
        rcases inStack with rfl | inStack
        · refine .inr ⟨List.mem_cons_self, ?_⟩
          rcases kind with name | ⟨rfl, -⟩
          · exact name.1
          · exact List.cons_ne_nil _ _
        · exact .inl inStack
      · rw [popped]
        exact .inl (List.mem_cons_of_mem _ inStack)
    · exact .inr ⟨List.mem_cons_of_mem _ later, notEmpty⟩

/-- The segments left of a path without a slash before it. -/
def stackOf (text : List Char) : List (List Char) := (text.splitOn '/').foldl (cleanStep false) []

theorem mem_stackOf {text segment : List Char} (member : segment ∈ stackOf text) :
    segment ≠ [] ∧ '/' ∉ segment := by
  rcases mem_foldl_cleanStep member with absurd | ⟨inText, notEmpty⟩
  · cases absurd
  · refine ⟨notEmpty, fun slash => ?_⟩
    have other := mem_splitOnP inText '/' slash
    simp at other

theorem splitOn_stackOf (notEmpty : stackOf text ≠ []) :
    (['/'].intercalate (stackOf text).reverse).splitOn '/' = (stackOf text).reverse := by
  apply List.splitOn_intercalate
  · intro segment member
    exact (mem_stackOf (List.mem_reverse.mp member)).2
  · simpa using notEmpty

theorem clean_of_stack (head : text.head? ≠ some '/') : clean text = if stackOf text = [] then ['.']
      else ['/'].intercalate (stackOf text).reverse := by
  unfold clean
  dsimp only
  rw [decide_eq_false head, if_neg head]
  show (if ['/'].intercalate (stackOf text).reverse = [] then ['.']
    else ['/'].intercalate (stackOf text).reverse) = _
  by_cases empty : stackOf text = []
  · rw [if_pos empty, empty]
    rfl
  · have body : ['/'].intercalate (stackOf text).reverse ≠ [] := by
      intro noBody
      have segments := splitOn_stackOf empty
      rw [noBody] at segments
      have inStack : [] ∈ (stackOf text).reverse := by
        rw [← segments]
        simp
      exact (mem_stackOf (List.mem_reverse.mp inStack)).1 rfl
    rw [if_neg body, if_neg empty]

theorem solid_clean (head : text.head? ≠ some '/') : Solid (clean text) := by
  rw [clean_of_stack head]
  by_cases empty : stackOf text = []
  · rw [if_pos empty]
    decide
  · rw [if_neg empty, Solid, splitOn_stackOf empty]
    intro member
    exact (mem_stackOf (List.mem_reverse.mp member)).1 rfl

theorem length_clean_le (head : text.head? ≠ some '/') (notEmpty : text ≠ []) :
    (clean text).length ≤ text.length := by
  rw [clean_of_stack head]
  by_cases empty : stackOf text = []
  · rw [if_pos empty]
    exact List.length_pos_iff.mpr notEmpty
  · rw [if_neg empty]
    have bound : weight (stackOf text) ≤ weight (text.splitOn '/') := by
      have total := (foldl_cleanStep_weight false (text.splitOn '/') []).1
      rwa [weight_nil, Nat.zero_add] at total
    have length := length_intercalate (List.reverse_ne_nil_iff.mpr empty)
    rw [weight_reverse] at length
    rw [weight_splitOn] at bound
    omega

/-! ### Clean segments -/

/-- Steps upwards, then names. -/
def Normal (segments : List (List Char)) : Prop :=
  ∃ ups names, segments = ups ++ names ∧ (∀ segment ∈ ups, segment = ['.', '.']) ∧
    ∀ segment ∈ names, IsName segment

theorem Normal.append {first second : List (List Char)} (normal : Normal (first ++ second)) :
    Normal first ∧ Normal second ∧
      ((∀ segment ∈ second, IsName segment) ∨ ∀ segment ∈ first, segment = ['.', '.']) := by
  obtain ⟨ups, names, shape, areUps, areNames⟩ := normal
  rcases List.append_eq_append_iff.mp shape with ⟨middle, rfl, rfl⟩ | ⟨middle, rfl, rfl⟩
  · rw [List.forall_mem_append] at areUps
    exact ⟨⟨first, [], by simp, areUps.1, by simp⟩, ⟨middle, names, rfl, areUps.2, areNames⟩,
      .inr areUps.1⟩
  · rw [List.forall_mem_append] at areNames
    exact ⟨⟨ups, middle, rfl, areUps, areNames.1⟩, ⟨[], second, rfl, by simp, areNames.2⟩,
      .inl areNames.2⟩

theorem normal_cleanStep {stack : List (List Char)} (normal : Normal stack.reverse)
    (segment : List Char) : Normal (cleanStep false stack segment).reverse := by
  rcases cleanStep_cases false stack segment with same | ⟨pushed, kind⟩ | ⟨top, popped⟩
  · rwa [same]
  · rw [pushed, List.reverse_cons]
    obtain ⟨ups, names, shape, areUps, areNames⟩ := normal
    rcases kind with name | ⟨rfl, topDots⟩
    · refine ⟨ups, names ++ [segment], by rw [shape, List.append_assoc], areUps, ?_⟩
      rw [List.forall_mem_append]
      exact ⟨areNames, by simpa using name⟩
    · -- A step upwards stays only where no name is before it.
      have noNames : names = [] := by
        rcases List.eq_nil_or_concat names with empty | ⟨others, last, rfl⟩
        · exact empty
        · have stackShape : stack = last :: (ups ++ others).reverse := by
            rw [← List.reverse_reverse stack, shape]
            simp
          have isDots := topDots last (by rw [stackShape]; rfl)
          exact absurd isDots (areNames last (by simp)).2.2
      refine ⟨ups ++ [['.', '.']], [], by rw [shape, noNames]; simp, ?_, by simp⟩
      rw [List.forall_mem_append]
      exact ⟨areUps, by simp⟩
  · rw [popped, List.reverse_cons] at normal
    exact normal.append.1

theorem normal_stackOf (text : List Char) : Normal (stackOf text).reverse := by
  have run : ∀ (segments stack : List (List Char)), Normal stack.reverse →
      Normal (segments.foldl (cleanStep false) stack).reverse := by
    intro segments
    induction segments with
    | nil => exact fun stack normal => normal
    | cons segment segments ih =>
      exact fun stack normal => ih _ (normal_cleanStep normal segment)
  exact run _ [] ⟨[], [], rfl, by simp, by simp⟩

/-- Clean segments are all put on a stack that holds steps upwards only. -/
theorem foldl_cleanStep_normal {segments stack : List (List Char)} (normal : Normal segments)
    (dots : ∀ segment ∈ stack, segment = ['.', '.']) :
    segments.foldl (cleanStep false) stack = segments.reverse ++ stack := by
  obtain ⟨ups, names, rfl, areUps, areNames⟩ := normal
  have climb : ups.foldl (cleanStep false) stack = ups.reverse ++ stack := by
    induction ups generalizing stack with
    | nil => rfl
    | cons up ups ih =>
      obtain ⟨rfl, restUps⟩ := List.forall_mem_cons.mp areUps
      have pushed : cleanStep false stack ['.', '.'] = ['.', '.'] :: stack := by
        cases stack with
        | nil => rfl
        | cons top below =>
          have topDots := dots top List.mem_cons_self
          simp [cleanStep, topDots]
      have more : ∀ segment ∈ ['.', '.'] :: stack, segment = ['.', '.'] := by
        rw [List.forall_mem_cons]
        exact ⟨rfl, dots⟩
      rw [List.foldl_cons, pushed, ih more restUps]
      simp
  rw [List.foldl_append, climb, foldl_cleanStep_names false areNames]
  simp

theorem stackOf_append_slash (first second : List Char) : stackOf (first ++ '/' :: second) =
      (second.splitOn '/').foldl (cleanStep false) (stackOf first) := by
  unfold stackOf
  rw [List.splitOn_append_cons_self, List.foldl_append]

theorem stackOf_slashes (text : List Char) (count : Nat) :
    stackOf (text ++ List.replicate count '/') = stackOf text := by
  induction count with
  | zero => simp
  | succ count ih =>
    rw [List.replicate_succ', ← List.append_assoc, stackOf_append_slash, ih]
    exact cleanStep_blank false (stackOf text)

/-- A path other than `.` is clean if all its segments stay. -/
theorem clean_eq_self_iff (head : text.head? ≠ some '/')
    (notDot : text ≠ ['.']) : clean text = text ↔ stackOf text = (text.splitOn '/').reverse := by
  rw [clean_of_stack head]
  constructor
  · intro same
    by_cases empty : stackOf text = []
    · rw [if_pos empty] at same
      exact absurd same.symm notDot
    · rw [if_neg empty] at same
      have segments := splitOn_stackOf empty
      rw [same] at segments
      rw [segments, List.reverse_reverse]
  · intro stays
    have notEmpty : stackOf text ≠ [] := by
      rw [stays]
      simp
    rw [if_neg notEmpty, stays, List.reverse_reverse, List.intercalate_splitOn]

theorem clean_clean (head : text.head? ≠ some '/') : clean (clean text) = clean text := by
  by_cases empty : stackOf text = []
  · rw [clean_of_stack head, if_pos empty]
    rfl
  · have shape := clean_of_stack head
    rw [if_neg empty] at shape
    have segments := splitOn_stackOf empty
    have again : stackOf (clean text) = stackOf text := by
      rw [shape, stackOf, segments, foldl_cleanStep_normal (normal_stackOf text) (by simp)]
      simp
    rw [clean_of_stack (solid_clean head).bare.1, again, if_neg empty, shape]

theorem stackOf_of_normal (normal : Normal (text.splitOn '/')) :
    stackOf text = (text.splitOn '/').reverse := by
  rw [stackOf, foldl_cleanStep_normal normal (by simp), List.append_nil]

theorem solid_of_normal (normal : Normal (text.splitOn '/')) : Solid text := by
  intro member
  obtain ⟨ups, names, shape, areUps, areNames⟩ := normal
  rw [shape, List.mem_append] at member
  rcases member with inUps | inNames
  · cases areUps [] inUps
  · exact (areNames [] inNames).1 rfl

theorem clean_of_normal (normal : Normal (text.splitOn '/')) : clean text = text := by
  have notDot : text ≠ ['.'] := by
    rintro rfl
    exact absurd (stackOf_of_normal normal) (by decide)
  exact (clean_eq_self_iff (solid_of_normal normal).bare.1 notDot).mpr (stackOf_of_normal normal)

/-- What a path is cleaned to is told by the stack. -/
theorem clean_eq_iff {text other : List Char} (head : text.head? ≠ some '/')
    (normal : Normal (other.splitOn '/')) : clean text = other ↔ stackOf text = stackOf other := by
  have shape := clean_of_stack head
  constructor
  · intro cleaned
    by_cases empty : stackOf text = []
    · have dot := stackOf_of_normal normal
      rw [if_pos empty] at shape
      rw [← cleaned, shape] at dot
      exact absurd dot (by decide)
    · have segments := splitOn_stackOf empty
      rw [if_neg empty, cleaned] at shape
      rw [← shape] at segments
      rw [stackOf_of_normal normal, segments, List.reverse_reverse]
  · intro same
    rw [shape, same, ← clean_of_stack (solid_of_normal normal).bare.1, clean_of_normal normal]

theorem normal_of_clean {folder rest : List Char} (head : folder.head? ≠ some '/')
    (inFolder : folder ≠ []) (same : clean (folder ++ '/' :: rest) = folder ++ '/' :: rest) :
    Normal (folder.splitOn '/' ++ rest.splitOn '/') := by
  have wholeHead : (folder ++ '/' :: rest).head? ≠ some '/' := by
    rwa [List.head?_append_of_ne_nil _ inFolder]
  have notDot : folder ++ '/' :: rest ≠ ['.'] := by
    intro dot
    have inDot : '/' ∈ ['.'] := by
      rw [← dot]
      simp
    exact absurd inDot (by decide)
  have stays := (clean_eq_self_iff wholeHead notDot).mp same
  have normal := normal_stackOf (folder ++ '/' :: rest)
  rwa [stays, List.reverse_reverse, List.splitOn_append_cons_self] at normal

/-- A clean path that stays the same with its folder before it: the folder stays
the same with itself before it. -/
theorem clean_doubled {folder rest : List Char} (head : folder.head? ≠ some '/')
    (inFolder : folder ≠ []) (same : clean (folder ++ '/' :: rest) = folder ++ '/' :: rest) :
    clean (folder ++ '/' :: (folder ++ '/' :: rest)) = folder ++ '/' :: rest ↔
      clean (folder ++ '/' :: folder) = folder := by
  have normal := normal_of_clean head inFolder same
  obtain ⟨folderNormal, restNormal, kind⟩ := normal.append
  have folderStack := stackOf_of_normal folderNormal
  have wholeNormal : Normal ((folder ++ '/' :: rest).splitOn '/') := by
    rwa [List.splitOn_append_cons_self]
  have wholeStack := stackOf_of_normal wholeNormal
  have doubledHead (text : List Char) : (folder ++ '/' :: text).head? ≠ some '/' := by
    rwa [List.head?_append_of_ne_nil _ inFolder]
  rw [clean_eq_iff (doubledHead _) wholeNormal, clean_eq_iff (doubledHead _) folderNormal]
  have doubled : stackOf (folder ++ '/' :: (folder ++ '/' :: rest)) =
      (rest.splitOn '/').foldl (cleanStep false) (stackOf (folder ++ '/' :: folder)) := by
    rw [stackOf_append_slash, stackOf_append_slash, List.splitOn_append_cons_self,
      List.foldl_append]
  have pushed : stackOf (folder ++ '/' :: (folder ++ '/' :: rest)) =
      (rest.splitOn '/').reverse ++ stackOf (folder ++ '/' :: folder) := by
    rw [doubled]
    rcases kind with names | dots
    · exact foldl_cleanStep_names false names _
    · apply foldl_cleanStep_normal restNormal
      have stackDots : ∀ segment ∈ stackOf folder, segment = ['.', '.'] := by
        rw [folderStack]
        intro segment member
        exact dots segment (List.mem_reverse.mp member)
      rw [stackOf_append_slash, foldl_cleanStep_normal folderNormal stackDots,
        List.forall_mem_append]
      exact ⟨fun segment member => dots segment (List.mem_reverse.mp member), stackDots⟩
  rw [pushed, wholeStack, folderStack, List.splitOn_append_cons_self, List.reverse_append]
  exact List.append_right_inj _

/-! ### A name behind a path -/

theorem intercalate_concat (notEmpty : segments ≠ []) (last : List Char) :
    ['/'].intercalate (segments ++ [last]) = ['/'].intercalate segments ++ '/' :: last := by
  induction segments with
  | nil => exact absurd rfl notEmpty
  | cons segment rest ih =>
    cases rest with
    | nil => simp [List.intercalate_cons_cons]
    | cons next others =>
      have later := ih (List.cons_ne_nil _ _)
      rw [List.cons_append, List.cons_append, List.intercalate_cons_cons, ← List.cons_append,
        later, List.intercalate_cons_cons]
      simp

theorem clean_append_name {text segment : List Char} (head : text.head? ≠ some '/')
    (notEmpty : stackOf text ≠ []) (noSlash : '/' ∉ segment) (name : IsName segment) :
    clean (text ++ '/' :: segment) = clean text ++ '/' :: segment := by
  have textNotEmpty : text ≠ [] := by
    rintro rfl
    exact notEmpty rfl
  have wholeHead : (text ++ '/' :: segment).head? ≠ some '/' := by
    rwa [List.head?_append_of_ne_nil _ textNotEmpty]
  have stack : stackOf (text ++ '/' :: segment) = segment :: stackOf text := by
    rw [stackOf_append_slash, List.splitOn_eq_singleton noSlash]
    exact cleanStep_name false (stackOf text) name
  rw [clean_of_stack wholeHead, clean_of_stack head, stack, if_neg (List.cons_ne_nil _ _),
    if_neg notEmpty, List.reverse_cons, intercalate_concat (by simpa using notEmpty)]

theorem mem_clean {c : Char} (head : text.head? ≠ some '/')
    (member : c ∈ clean text) : c = '/' ∨ c = '.' ∨ c ∈ text := by
  rw [clean_of_stack head] at member
  by_cases empty : stackOf text = []
  · rw [if_pos empty, List.mem_singleton] at member
    exact .inr (.inl member)
  · rw [if_neg empty] at member
    rcases mem_intercalate member with isSlash | ⟨segment, inStack, inSegment⟩
    · exact .inl isSlash
    · rcases mem_foldl_cleanStep (List.mem_reverse.mp inStack) with absurd | ⟨inText, -⟩
      · cases absurd
      · exact .inr (.inr ((infix_of_mem_splitOnP inText).subset inSegment))

end DbBackup.Lib.SlashPath
