import DbBackup.Scheduler.Cron
import Mathlib.Order.Bounds.Basic
import Mathlib.Tactic.Ring

/-!
Owns what a cron expression means: every element of a field is a set of values,
a field is the union of its elements, and an instant fits if all five of its
components are in the sets.

The validator (`internal/config/schedule.go`) and the matcher
(`internal/scheduler/cron.go`) read a field separately. Contract: on accepted
fields the reading is unique and the matcher decides the set
(`fieldMatch_iff`), no set is empty (`fieldSet_nonempty`), and `nextCronAt`
finds the first instant that fits (`nextCronAt_isLeast`).
-/

set_option linter.all false

namespace DbBackup.Scheduler

open Config Lib.Delimited Lib.Duration Lib.Scan Lib.Time Lib.Zone

/-! ### The meaning of a field -/

inductive CronElement where
  | all
  | value (n : Int)
  | range (low high : Int)
  | every (start step : Int)

/-- The values of an element between `min` and `max`. -/
def CronElement.values (min max : Int) : CronElement → Set Int
  | .all => {v | min ≤ v ∧ v ≤ max}
  | .value n => {v | (min ≤ v ∧ v ≤ max) ∧ v = n}
  | .range low high => {v | (min ≤ v ∧ v ≤ max) ∧ low ≤ v ∧ v ≤ high}
  | .every start step => {v | (min ≤ v ∧ v ≤ max) ∧ ∃ k : Nat, v = start + k * step}

/-- How the text of an element is read; a star before the step stands for `min`. -/
inductive ReadsAs (min : Int) : String → CronElement → Prop
  | all : ReadsAs min "*" .all
  | value {text : String} {n : Int} (number : atoi? text = some n) : ReadsAs min text (.value n)
  | range {a b : String} {low high : Int} (first : atoi? a = some low) (last : atoi? b = some high) :
      ReadsAs min (a ++ "-" ++ b) (.range low high)
  | everyFromMin {k : String} {step : Int} (isStep : atoi? k = some step) :
      ReadsAs min ("*" ++ "/" ++ k) (.every min step)
  | every {a k : String} {start step : Int} (isStart : atoi? a = some start)
      (isStep : atoi? k = some step) : ReadsAs min (a ++ "/" ++ k) (.every start step)

def fieldSet (field : String) (min max : Int) : Set Int :=
  {v | ∃ text ∈ splitChar ',' field, ∃ element, ReadsAs min text element ∧ v ∈ element.values min max}

/-! ### One element -/

variable {text : String}

theorem slash_not_mem {n : Int} (number : atoi? text = some n) : '/' ∉ text.toList :=
  not_mem_of_atoi? number (by decide) (by decide)

/-- A dash in a number is its sign. -/
theorem dash_first {n : Int} (number : atoi? text = some n) (dash : '-' ∈ text.toList) :
    text.toList.head? = some '-' := by
  obtain ⟨sign, digits, shape, isSign, -, allDigits⟩ := atoi?_shape number
  rw [shape] at dash ⊢
  have notDigit : '-' ∉ digits := by
    intro inDigits
    exact absurd (allDigits _ inDigits) (by decide)
  rcases isSign with rfl | rfl | rfl
  · exact absurd dash notDigit
  · rfl
  · rcases List.mem_append.mp dash with inSign | inDigits
    · exact absurd inSign (by decide)
    · exact absurd inDigits notDigit

/-- What the validator and the matcher make of one element. -/
structure ElementSpec (atom : String) (min max : Int) (element : CronElement) : Prop where
  reads : ReadsAs min atom element
  unique : ∀ other, ReadsAs min atom other → other = element
  matched : ∀ val, min ≤ val → val ≤ max →
    (atomMatch atom val min = true ↔ val ∈ element.values min max)
  nonempty : min ≤ max → (element.values min max).Nonempty

theorem hasChar_iff {c : Char} : hasChar c text = true ↔ c ∈ text.toList := by
  unfold hasChar
  exact List.contains_iff_mem

/-- The texts of readings, by their characters. -/
theorem ReadsAs.toList {min : Int} {element : CronElement} (reads : ReadsAs min text element) :
    (text = "*" ∧ element = .all) ∨ (∃ n, atoi? text = some n ∧ element = .value n) ∨
    (∃ a b low high, atoi? a = some low ∧ atoi? b = some high ∧
      text.toList = a.toList ++ '-' :: b.toList ∧ element = .range low high) ∨
    ∃ base k start step, atoi? k = some step ∧ text.toList = base.toList ++ '/' :: k.toList ∧
      (base = "*" ∧ start = min ∨ atoi? base = some start) ∧ element = .every start step := by
  cases reads with
  | all => exact .inl ⟨rfl, rfl⟩
  | value number => exact .inr (.inl ⟨_, number, rfl⟩)
  | range first last =>
    exact .inr (.inr (.inl ⟨_, _, _, _, first, last, by simp, rfl⟩))
  | everyFromMin isStep =>
    exact .inr (.inr (.inr ⟨"*", _, _, _, isStep, by simp, .inl ⟨rfl, rfl⟩, rfl⟩))
  | every isStart isStep =>
    exact .inr (.inr (.inr ⟨_, _, _, _, isStep, by simp, .inr isStart, rfl⟩))

section Element

variable {atom : String} {min max : Int}

theorem emod_step_iff {val start step : Int} (positive : 0 < step) (low : start ≤ val) :
    (val - start).tmod step = 0 ↔ ∃ k : Nat, val = start + k * step := by
  rw [← Int.dvd_iff_tmod_eq_zero]
  constructor
  · rintro ⟨k, difference⟩
    have notNegative : 0 ≤ k := by
      by_contra negative
      have product := Int.mul_neg_of_pos_of_neg positive (by omega : k < 0)
      omega
    refine ⟨k.toNat, ?_⟩
    rw [Int.toNat_of_nonneg notNegative, Int.mul_comm]
    omega
  · rintro ⟨k, rfl⟩
    exact ⟨k, by rw [Int.mul_comm]; omega⟩

/-- The parts of an accepted step. -/
theorem validateStep_ok {base k : String} (isCut : cut '/' atom = (base, some k))
    (valid : validateStep atom min max = .ok ()) :
    ∃ start step, atoi? k = some step ∧ 0 < step ∧
      (base = "*" ∧ start = min ∨
        base ≠ "*" ∧ atoi? base = some start ∧ min ≤ start ∧ start ≤ max) := by
  unfold validateStep at valid
  simp only [isCut, Option.getD_some] at valid
  split at valid
  · cases valid
  · split at valid
    · cases valid
    · rename_i step isStep
      split at valid
      · cases valid
      · rename_i positive
        split at valid
        · rename_i star
          exact ⟨min, step, isStep, by omega, .inl ⟨star, rfl⟩⟩
        · rename_i notStar
          split at valid
          · cases valid
          · rename_i start isStart
            split at valid
            · cases valid
            · rename_i inside
              exact ⟨start, step, isStep, by omega, .inr ⟨notStar, isStart, by omega, by omega⟩⟩

theorem stepMatch_iff {base k : String} {start step val : Int} (isCut : cut '/' atom = (base, some k))
    (isStep : atoi? k = some step) (positive : 0 < step)
    (isBase : base = "*" ∧ start = min ∨ base ≠ "*" ∧ atoi? base = some start ∧ min ≤ start ∧ start ≤ max)
    (low : min ≤ val) :
    stepMatch atom val min = true ↔ ∃ k : Nat, val = start + k * step := by
  unfold stepMatch
  simp only [isCut, Option.getD_some, isStep]
  rw [if_neg (by omega)]
  rcases isBase with ⟨star, rfl⟩ | ⟨notStar, isStart, -, -⟩
  · rw [if_pos star, decide_eq_true_eq, emod_step_iff positive low]
  · simp only [if_neg notStar, isStart, Bool.and_eq_true, decide_eq_true_eq]
    constructor
    · rintro ⟨notBefore, onStep⟩
      exact (emod_step_iff positive notBefore).mp onStep
    · rintro ⟨k, rfl⟩
      have product : 0 ≤ (k : Int) * step := Int.mul_nonneg (by omega) (by omega)
      exact ⟨by omega, (emod_step_iff positive (by omega)).mpr ⟨k, rfl⟩⟩

/-- An accepted element with a step. -/
theorem elementSpec_step (plain : hasQuote atom = false) (hasStep : '/' ∈ atom.toList)
    (valid : validateStep atom min max = .ok ()) : ∃ element, ElementSpec atom min max element := by
  obtain ⟨base, k, isCut, shape, noSlash⟩ := cut_of_mem hasStep
  obtain ⟨start, step, isStep, positive, isBase⟩ := validateStep_ok isCut valid
  have notStar : atom ≠ "*" := by
    rintro rfl
    exact absurd hasStep (by decide)
  have noNumber : atoi? "*" = none := by decide
  have isAtom : atom = base ++ "/" ++ k := by
    apply String.toList_injective
    simp [shape]
  refine ⟨.every start step, ?_, ?_, ?_, ?_⟩
  · rw [isAtom]
    rcases isBase with ⟨rfl, rfl⟩ | ⟨-, isStart, -⟩
    · exact .everyFromMin isStep
    · exact .every isStart isStep
  · intro other reads
    rcases reads.toList with ⟨star, -⟩ | ⟨n, number, -⟩ | ⟨a, b, low, high, first, last, text, -⟩ |
      ⟨base', k', start', step', isStep', text, isBase', rfl⟩
    · exact absurd star notStar
    · exact absurd hasStep (slash_not_mem number)
    · rw [text, List.mem_append, List.mem_cons] at hasStep
      rcases hasStep with inFirst | isDash | inLast
      · exact absurd inFirst (slash_not_mem first)
      · exact absurd isDash (by decide)
      · exact absurd inLast (slash_not_mem last)
    · have noSlash' : '/' ∉ base'.toList := by
        rcases isBase' with ⟨rfl, -⟩ | isStart'
        · decide
        · exact slash_not_mem isStart'
      obtain ⟨sameBase, sameStep⟩ := append_cons_inj_left noSlash noSlash' (shape.symm.trans text)
      rw [← String.toList_injective sameStep, isStep] at isStep'
      rw [← String.toList_injective sameBase] at isBase'
      have isStart : start' = start := by
        rcases isBase with ⟨star, rfl⟩ | ⟨notStar, isStart, -⟩
        · rcases isBase' with ⟨-, rfl⟩ | isStart'
          · rfl
          · rw [star, noNumber] at isStart'
            cases isStart'
        · rcases isBase' with ⟨star, -⟩ | isStart'
          · exact absurd star notStar
          · exact Option.some.inj (isStart'.symm.trans isStart)
      rw [isStart, Option.some.inj isStep']
  · intro val low high
    unfold atomMatch
    rw [if_neg notStar, plain, if_neg (by decide), if_pos (hasChar_iff.mpr hasStep),
      stepMatch_iff isCut isStep positive isBase low]
    exact ⟨fun onStep => ⟨⟨low, high⟩, onStep⟩, fun member => member.2⟩
  · intro order
    rcases isBase with ⟨-, rfl⟩ | ⟨-, -, low, high⟩
    · exact ⟨start, ⟨le_refl _, order⟩, 0, by simp⟩
    · exact ⟨start, ⟨low, high⟩, 0, by simp⟩

/-- An accepted element that is an interval. -/
theorem elementSpec_range (plain : hasQuote atom = false) (noStep : '/' ∉ atom.toList)
    (hasRange : '-' ∈ atom.toList) {a b : Int} (isRange : parseRange atom = some (a, b))
    (inside : min ≤ a ∧ b ≤ max ∧ a ≤ b) : ∃ element, ElementSpec atom min max element := by
  obtain ⟨first, last, isCut, shape, noDash⟩ := cut_of_mem hasRange
  have ends : atoi? first = some a ∧ atoi? last = some b := by
    unfold parseRange at isRange
    simp only [isCut] at isRange
    split at isRange
    · rename_i low high isLow isHigh
      cases isRange
      exact ⟨isLow, isHigh⟩
    · cases isRange
  have notEmpty : first.toList ≠ [] := by
    obtain ⟨sign, digits, text, -, someDigits, -⟩ := atoi?_shape ends.1
    simp [text, someDigits]
  have notSigned : atom.toList.head? ≠ some '-' := by
    intro signed
    rw [shape, List.head?_append_of_ne_nil _ notEmpty] at signed
    exact noDash (List.mem_of_mem_head? signed)
  have notStar : atom ≠ "*" := by
    rintro rfl
    exact absurd hasRange (by decide)
  have isAtom : atom = first ++ "-" ++ last := by
    apply String.toList_injective
    simp [shape]
  refine ⟨.range a b, ?_, ?_, ?_, ?_⟩
  · rw [isAtom]
    exact .range ends.1 ends.2
  · intro other reads
    rcases reads.toList with ⟨star, -⟩ | ⟨n, number, -⟩ |
      ⟨first', last', low, high, isLow, isHigh, text, rfl⟩ | ⟨base, k, start, step, -, text, -⟩
    · exact absurd star notStar
    · exact absurd (dash_first number hasRange) notSigned
    · have noDash' : '-' ∉ first'.toList := by
        intro dash
        have signed := dash_first isLow dash
        have someChars : first'.toList ≠ [] := List.ne_nil_of_mem dash
        rw [text, List.head?_append_of_ne_nil _ someChars] at notSigned
        exact notSigned signed
      obtain ⟨sameFirst, sameLast⟩ := append_cons_inj_left noDash noDash' (shape.symm.trans text)
      rw [← String.toList_injective sameFirst, ends.1] at isLow
      rw [← String.toList_injective sameLast, ends.2] at isHigh
      rw [Option.some.inj isLow, Option.some.inj isHigh]
    · rw [text] at noStep
      exact absurd (by simp) noStep
  · intro val low high
    unfold atomMatch
    rw [if_neg notStar, plain, if_neg (by decide), if_neg (by rwa [hasChar_iff]),
      if_pos (hasChar_iff.mpr hasRange), isRange]
    simp only [Bool.and_eq_true, decide_eq_true_eq]
    exact ⟨fun inRange => ⟨⟨low, high⟩, inRange⟩, fun member => member.2⟩
  · intro _
    exact ⟨a, ⟨by omega, by omega⟩, by omega⟩

/-- An accepted element that is a number. -/
theorem elementSpec_value (plain : hasQuote atom = false) (noStep : '/' ∉ atom.toList)
    (noRange : '-' ∉ atom.toList) {n : Int} (number : atoi? atom = some n)
    (inside : min ≤ n ∧ n ≤ max) : ∃ element, ElementSpec atom min max element := by
  have noNumber : atoi? "*" = none := by decide
  have notStar : atom ≠ "*" := by
    rintro rfl
    rw [noNumber] at number
    cases number
  refine ⟨.value n, .value number, ?_, ?_, fun _ => ⟨n, inside, rfl⟩⟩
  · intro other reads
    rcases reads.toList with ⟨star, -⟩ | ⟨m, number', rfl⟩ |
      ⟨first, last, low, high, -, -, text, -⟩ | ⟨base, k, start, step, -, text, -⟩
    · exact absurd star notStar
    · rw [Option.some.inj (number'.symm.trans number)]
    · rw [text] at noRange
      exact absurd (by simp) noRange
    · rw [text] at noStep
      exact absurd (by simp) noStep
  · intro val low high
    unfold atomMatch
    rw [if_neg notStar, plain, if_neg (by decide), if_neg (by rwa [hasChar_iff]),
      if_neg (by rwa [hasChar_iff]), number]
    simp only [decide_eq_true_eq]
    exact ⟨fun same => ⟨⟨low, high⟩, same⟩, fun member => member.2⟩

theorem exists_elementSpec (plain : hasQuote atom = false)
    (valid : validateCronAtom atom min max = .ok ()) :
    ∃ element, ElementSpec atom min max element := by
  unfold validateCronAtom at valid
  split at valid
  · rename_i hasStep
    exact elementSpec_step plain (hasChar_iff.mp hasStep) valid
  · rename_i noStep
    rw [hasChar_iff] at noStep
    split at valid
    · rename_i hasRange
      split at valid
      · cases valid
      · rename_i a b isRange
        split at valid
        · cases valid
        · exact elementSpec_range plain noStep (hasChar_iff.mp hasRange) isRange (by omega)
    · rename_i noRange
      rw [hasChar_iff] at noRange
      split at valid
      · cases valid
      · rename_i n number
        split at valid
        · cases valid
        · exact elementSpec_value plain noStep noRange number (by omega)

end Element

/-! ### A field -/

variable {field : String}

theorem hasQuote_of_cronChars (plain : ∀ c ∈ field.toList, isCronChar c = true) :
    hasQuote field = false := by
  unfold hasQuote
  rw [List.any_eq_false]
  intro c member
  have isPlain := plain c member
  by_contra quote
  simp only [Bool.or_eq_true, decide_eq_true_eq] at quote
  rcases quote with rfl | rfl
  · exact absurd isPlain (by decide)
  · exact absurd isPlain (by decide)

theorem mem_of_mem_splitChar {sep c : Char} {text part : String} (member : part ∈ splitChar sep text)
    (inPart : c ∈ part.toList) : c ∈ text.toList := by
  obtain ⟨chars, inSplit, rfl⟩ := List.mem_map.mp member
  rw [String.toList_ofList] at inPart
  exact (mem_splitOnP inSplit c inPart).2

theorem splitChar_of_not_mem {sep : Char} (absent : sep ∉ text.toList) :
    splitChar sep text = [text] := by
  unfold splitChar
  rw [List.splitOn_eq_singleton absent]
  simp

/-- An accepted field is a star, or all of its elements are accepted. -/
theorem validateCronField_ok {min max : Int} (valid : validateCronField field min max = .ok ()) :
    (∀ c ∈ field.toList, isCronChar c = true) ∧
      (field = "*" ∨ ∀ p ∈ splitChar ',' field, validateCronAtom p min max = .ok ()) := by
  unfold validateCronField at valid
  split at valid
  · cases valid
  · split at valid
    · cases valid
    · rename_i allPlain
      refine ⟨fun c member => by simpa using List.find?_eq_none.mp allPlain c member, ?_⟩
      split at valid
      · rename_i star
        exact .inl star
      · right
        split at valid
        · intro p member
          have checked := forM_ok_forall valid p member
          split at checked
          · cases checked
          · exact checked
        · rename_i noList
          rw [hasChar_iff] at noList
          rw [splitChar_of_not_mem noList]
          intro p member
          rwa [List.mem_singleton.mp member]

/-- A field of accepted elements is accepted. -/
theorem validateCronField_of_parts {min max : Int} (plain : ∀ c ∈ field.toList, isCronChar c = true)
    (valid : ∀ p ∈ splitChar ',' field, p ≠ "" ∧ validateCronAtom p min max = .ok ()) :
    validateCronField field min max = .ok () := by
  have noOther : (field.toList.find? fun c => !isCronChar c) = none :=
    List.find?_eq_none.mpr fun c member => by simp [plain c member]
  have notEmpty : field ≠ "" := by
    rintro rfl
    exact (valid "" (by decide)).1 rfl
  unfold validateCronField
  rw [if_neg notEmpty, noOther]
  simp only
  split
  · rfl
  · split
    · apply forM_ok_of_forall
      intro p member
      rw [if_neg (valid p member).1]
      exact (valid p member).2
    · rename_i noList
      rw [hasChar_iff] at noList
      rw [splitChar_of_not_mem noList] at valid
      exact (valid field (List.mem_singleton_self _)).2

theorem fieldMatch_eq (plain : hasQuote field = false) (val min : Int) : fieldMatch field val min =
      (decide (field = "*") || (splitChar ',' field).any fun p => atomMatch p val min) := by
  unfold fieldMatch
  rw [plain]
  by_cases star : field = "*"
  · simp [star]
  · simp only [star, Bool.false_eq_true, ↓reduceIte, decide_false, Bool.false_or]
    by_cases isList : hasChar ',' field = true
    · rw [if_pos isList]
    · rw [if_neg isList]
      rw [hasChar_iff] at isList
      rw [splitChar_of_not_mem isList]
      simp

section Field

variable {field : String} {min max : Int} (valid : validateCronField field min max = .ok ())

include valid

theorem part_plain {part : String} (member : part ∈ splitChar ',' field) : hasQuote part = false := by
  apply hasQuote_of_cronChars
  intro c inPart
  exact (validateCronField_ok valid).1 c (mem_of_mem_splitChar member inPart)

theorem part_spec (notStar : field ≠ "*") {part : String} (member : part ∈ splitChar ',' field) :
    ∃ element, ElementSpec part min max element :=
  exists_elementSpec (part_plain valid member)
    ((validateCronField_ok valid).2.resolve_left notStar part member)

/-- On an accepted field the matcher decides the set. -/
theorem fieldMatch_iff {val : Int} (low : min ≤ val) (high : val ≤ max) :
    fieldMatch field val min = true ↔ val ∈ fieldSet field min max := by
  have plain := hasQuote_of_cronChars (validateCronField_ok valid).1
  rw [fieldMatch_eq plain, Bool.or_eq_true, decide_eq_true_eq, List.any_eq_true]
  by_cases star : field = "*"
  · have parts : splitChar ',' "*" = ["*"] := by decide
    refine ⟨fun _ => ⟨"*", ?_, .all, .all, low, high⟩, fun _ => .inl star⟩
    rw [star, parts]
    exact List.mem_singleton_self _
  · rw [or_iff_right star]
    constructor
    · rintro ⟨part, member, matched⟩
      obtain ⟨element, spec⟩ := part_spec valid star member
      exact ⟨part, member, element, spec.reads, (spec.matched val low high).mp matched⟩
    · rintro ⟨part, member, other, reads, inElement⟩
      obtain ⟨element, spec⟩ := part_spec valid star member
      rw [spec.unique other reads] at inElement
      exact ⟨part, member, (spec.matched val low high).mpr inElement⟩

theorem fieldSet_nonempty (order : min ≤ max) : (fieldSet field min max).Nonempty := by
  by_cases star : field = "*"
  · have parts : splitChar ',' "*" = ["*"] := by decide
    refine ⟨min, "*", ?_, .all, .all, le_refl _, order⟩
    rw [star, parts]
    exact List.mem_singleton_self _
  · cases parts : splitChar ',' field with
    | nil => exact absurd parts (by simp [splitChar, List.splitOn_ne_nil])
    | cons first rest =>
      have member : first ∈ splitChar ',' field := by
        rw [parts]
        exact List.mem_cons_self
      obtain ⟨element, spec⟩ := part_spec valid star member
      obtain ⟨val, inElement⟩ := spec.nonempty order
      exact ⟨val, first, member, element, spec.reads, inElement⟩

omit valid in
theorem fieldSet_subset {val : Int} (member : val ∈ fieldSet field min max) :
    min ≤ val ∧ val ≤ max := by
  obtain ⟨part, -, element, -, inElement⟩ := member
  cases element with
  | all => exact inElement
  | value n => exact inElement.1
  | range low high => exact inElement.1
  | every start step => exact inElement.1

end Field

/-! ### An expression -/

/-- The five accepted fields of an expression. -/
structure CronFields (expr minutes hours days months weekdays : String) : Prop where
  parts : fields expr = [minutes, hours, days, months, weekdays]
  minutes : validateCronField minutes 0 59 = .ok ()
  hours : validateCronField hours 0 23 = .ok ()
  days : validateCronField days 1 31 = .ok ()
  months : validateCronField months 1 12 = .ok ()
  weekdays : validateCronField weekdays 0 6 = .ok ()

variable {expr : String}

theorem validateCron_ok (valid : validateCron expr = .ok ()) :
    ∃ minutes hours days months weekdays, CronFields expr minutes hours days months weekdays := by
  unfold validateCron at valid
  simp only at valid
  split at valid
  · cases valid
  · split at valid
    · cases valid
    · rename_i five
      obtain ⟨minutes, hours, days, months, weekdays, parts⟩ : ∃ minutes hours days months weekdays,
          fields expr = [minutes, hours, days, months, weekdays] := by
        match fields expr, five with
        | [minutes, hours, days, months, weekdays], _ =>
          exact ⟨minutes, hours, days, months, weekdays, rfl⟩
        | [], five | [_], five | [_, _], five | [_, _, _], five | [_, _, _, _], five
        | _ :: _ :: _ :: _ :: _ :: _ :: _, five => simp at five
      rw [parts] at valid
      have checked := forM_ok_forall valid
      have fieldValid : ∀ (field name : String) (min max : Int) (index : Nat),
          ((field, name, min, max), index) ∈
            ([minutes, hours, days, months, weekdays].zip cronBounds).zipIdx 1 →
          validateCronField field min max = .ok () := by
        intro field name min max index member
        have isOk := checked _ member
        simp only at isOk
        cases result : validateCronField field min max with
        | error error =>
          rw [result] at isOk
          cases isOk
        | ok value => rfl
      refine ⟨minutes, hours, days, months, weekdays, parts, ?_, ?_, ?_, ?_, ?_⟩
      · exact fieldValid minutes "minute" 0 59 1 (by simp [cronBounds])
      · exact fieldValid hours "hour" 0 23 2 (by simp [cronBounds])
      · exact fieldValid days "day" 1 31 3 (by simp [cronBounds])
      · exact fieldValid months "month" 1 12 4 (by simp [cronBounds])
      · exact fieldValid weekdays "weekday" 0 6 5 (by simp [cronBounds])

theorem validateCron_of_fields {expr minutes hours days months weekdays : String}
    (noQuote : hasQuote expr = false)
    (accepted : CronFields expr minutes hours days months weekdays) : validateCron expr = .ok () := by
  unfold validateCron
  simp only [accepted.parts, noQuote, Bool.false_eq_true, ↓reduceIte, List.length_cons,
    List.length_nil, ne_eq, not_true_eq_false]
  apply forM_ok_of_forall
  intro item member
  simp only [cronBounds, List.zip_cons_cons, List.zip_nil_right, List.zipIdx_cons, List.zipIdx_nil,
    List.mem_cons, List.not_mem_nil, or_false] at member
  rcases member with rfl | rfl | rfl | rfl | rfl
  · rw [accepted.minutes]
    rfl
  · rw [accepted.hours]
    rfl
  · rw [accepted.days]
    rfl
  · rw [accepted.months]
    rfl
  · rw [accepted.weekdays]
    rfl

/-- All five components of an instant are in the sets of the expression. -/
def Fits (loc : Location) (expr : String) (t : Int) : Prop :=
  ∃ minutes hours days months weekdays, fields expr = [minutes, hours, days, months, weekdays] ∧
    loc.clockMinute t ∈ fieldSet minutes 0 59 ∧ loc.clockHour t ∈ fieldSet hours 0 23 ∧
    (loc.civil t).2.2 ∈ fieldSet days 1 31 ∧ (loc.civil t).2.1 ∈ fieldSet months 1 12 ∧
    loc.weekday t ∈ fieldSet weekdays 0 6

theorem clock_range (loc : Location) (t : Int) : (0 ≤ loc.clockMinute t ∧ loc.clockMinute t ≤ 59) ∧
      (0 ≤ loc.clockHour t ∧ loc.clockHour t ≤ 23) ∧ (0 ≤ loc.weekday t ∧ loc.weekday t ≤ 6) := by
  unfold Location.clockMinute Location.clockHour Location.weekday
  omega

/-- What a clock that is never shifted shows at a whole minute. -/
theorem clock_fixed (shift q : Int) :
    (fixedZone (shift * 60)).clockMinute (q * minute) = (q + shift) % 60 ∧
      (fixedZone (shift * 60)).clockHour (q * minute) = (q + shift) % 1440 / 60 ∧
      (fixedZone (shift * 60)).localDay (q * minute) = (q + shift) / 1440 := by
  have shown : (fixedZone (shift * 60)).localSecond (q * minute) = (q + shift) * 60 := by
    show q * minute / second + shift * 60 = (q + shift) * 60
    unfold minute second
    omega
  unfold Location.clockMinute Location.clockHour Location.localDay
  rw [shown]
  omega

/-- The matcher decides an accepted expression. -/
theorem cronMatch_iff (valid : validateCron expr = .ok ()) (loc : Location) (t : Int) :
    cronMatch loc expr t = true ↔ Fits loc expr t := by
  obtain ⟨minutes, hours, days, months, weekdays, accepted⟩ := validateCron_ok valid
  obtain ⟨isMinute, isHour, isWeekday⟩ := clock_range loc t
  have isDay : 1 ≤ (loc.civil t).2.2 ∧ (loc.civil t).2.2 ≤ 31 := civilFromDays_day _
  have isMonth : 1 ≤ (loc.civil t).2.1 ∧ (loc.civil t).2.1 ≤ 12 := civilFromDays_month _
  unfold cronMatch Fits
  rw [accepted.parts]
  simp only [Bool.and_eq_true, fieldMatch_iff accepted.minutes isMinute.1 isMinute.2,
    fieldMatch_iff accepted.hours isHour.1 isHour.2, fieldMatch_iff accepted.days isDay.1 isDay.2,
    fieldMatch_iff accepted.months isMonth.1 isMonth.2,
    fieldMatch_iff accepted.weekdays isWeekday.1 isWeekday.2]
  constructor
  · rintro ⟨⟨⟨⟨inMinutes, inHours⟩, inDays⟩, inMonths⟩, inWeekdays⟩
    exact ⟨_, _, _, _, _, rfl, inMinutes, inHours, inDays, inMonths, inWeekdays⟩
  · rintro ⟨_, _, _, _, _, same, inMinutes, inHours, inDays, inMonths, inWeekdays⟩
    simp only [List.cons.injEq, and_true] at same
    obtain ⟨rfl, rfl, rfl, rfl, rfl⟩ := same
    exact ⟨⟨⟨⟨inMinutes, inHours⟩, inDays⟩, inMonths⟩, inWeekdays⟩

/-! ### The first match -/

theorem cronSearch_first {loc : Location} {left : Nat} {start next : Int}
    (found : cronSearch loc expr left start = some next) :
    ∃ i : Nat, i < left ∧ next = start + i * minute ∧ cronMatch loc expr next = true ∧
      ∀ j : Nat, j < i → cronMatch loc expr (start + j * minute) = false := by
  induction left generalizing start with
  | zero => cases found
  | succ left ih =>
    rw [cronSearch] at found
    split at found
    · rename_i now
      rw [← Option.some.inj found]
      exact ⟨0, Nat.succ_pos _, by simp, now, fun j before => absurd before (Nat.not_lt_zero j)⟩
    · rename_i notNow
      obtain ⟨i, inside, isNext, matched, first⟩ := ih found
      refine ⟨i + 1, by omega, ?_, matched, ?_⟩
      · rw [isNext]
        push_cast
        ring
      · intro j before
        cases j with
        | zero => simpa using notNow
        | succ j =>
          have earlier := first j (by omega)
          have shift : start + ((j + 1 : Nat) : Int) * minute = start + minute + j * minute := by
            push_cast
            ring
          rwa [shift]

section First

variable {loc : Location} {expr : String} {now : Int}

/-- The whole minutes after `now`, in order. -/
theorem wholeMinute_iff {t : Int} :
    now < t ∧ minute ∣ t ↔ ∃ i : Nat, t = (now + minute) / minute * minute + i * minute := by
  unfold minute second
  constructor
  · rintro ⟨later, q, rfl⟩
    exact ⟨(q - (now + 60 * 1000000000) / (60 * 1000000000)).toNat, by omega⟩
  · rintro ⟨i, rfl⟩
    exact ⟨by omega, ⟨(now + 60 * 1000000000) / (60 * 1000000000) + i, by omega⟩⟩

theorem nextCronAt_of_match
    (fits : ∃ t, now < t ∧ t ≤ now + 525600 * minute ∧ minute ∣ t ∧ cronMatch loc expr t = true) :
    0 < nextCronAt loc expr now ∧
      IsLeast {t | now < t ∧ minute ∣ t ∧ cronMatch loc expr t = true}
        (now + nextCronAt loc expr now) := by
  obtain ⟨t, later, within, whole, matched⟩ := fits
  obtain ⟨i, rfl⟩ := wholeMinute_iff.mp ⟨later, whole⟩
  have inside : i < 525600 := by
    unfold minute second at within
    omega
  obtain ⟨next, search⟩ := Option.isSome_iff_exists.mp (cronSearch_isSome.mpr ⟨i, inside, matched⟩)
  obtain ⟨first, bounded, isNext, isMatch, noneBefore⟩ := cronSearch_first search
  have isWait : nextCronAt loc expr now = next - now := by
    unfold nextCronAt
    simp only [search]
    unfold sub minDuration maxDuration
    unfold minute second at isNext
    omega
  have isAfter := wholeMinute_iff.mpr ⟨first, isNext⟩
  have same : now + (next - now) = next := by omega
  rw [isWait, same]
  refine ⟨by omega, ⟨isAfter.1, isAfter.2, isMatch⟩, ?_⟩
  rintro other ⟨otherLater, otherWhole, otherMatched⟩
  obtain ⟨j, rfl⟩ := wholeMinute_iff.mp ⟨otherLater, otherWhole⟩
  by_contra sooner
  have before : j < first := by
    unfold minute second at isNext sooner
    omega
  rw [noneBefore j before] at otherMatched
  cases otherMatched

theorem nextCronAt_of_no_match
    (noFit : ¬ ∃ t, now < t ∧ t ≤ now + 525600 * minute ∧ minute ∣ t ∧ cronMatch loc expr t = true) :
    nextCronAt loc expr now = 0 := by
  unfold nextCronAt
  cases search : cronSearch loc expr 525600 ((now + minute) / minute * minute) with
  | none => rfl
  | some next =>
    obtain ⟨i, inside, isNext, matched, -⟩ := cronSearch_first search
    obtain ⟨later, whole⟩ := wholeMinute_iff.mpr ⟨i, isNext⟩
    refine absurd ⟨next, later, ?_, whole, matched⟩ noFit
    unfold minute second at isNext ⊢
    omega

end First

/-- The wait of an accepted expression leads to the first minute that fits, and is
zero if there is none within 525600 minutes; no field is empty. -/
theorem nextCronAt_isLeast {expr : String} (valid : validateCron expr = .ok ()) (shift now : Int) :
    ((∃ t, now < t ∧ t ≤ now + 525600 * minute ∧ minute ∣ t ∧ Fits (fixedZone (shift * 60)) expr t) →
      0 < nextCronAt (fixedZone (shift * 60)) expr now ∧
        IsLeast {t | now < t ∧ minute ∣ t ∧ Fits (fixedZone (shift * 60)) expr t}
          (now + nextCronAt (fixedZone (shift * 60)) expr now)) ∧
    ((¬ ∃ t, now < t ∧ t ≤ now + 525600 * minute ∧ minute ∣ t ∧
        Fits (fixedZone (shift * 60)) expr t) → nextCronAt (fixedZone (shift * 60)) expr now = 0) ∧
    ∀ field min max, min ≤ max → validateCronField field min max = .ok () →
      (fieldSet field min max).Nonempty := by
  refine ⟨?_, ?_, fun field min max order fieldValid => fieldSet_nonempty fieldValid order⟩
  · simp only [← cronMatch_iff valid]
    exact nextCronAt_of_match
  · simp only [← cronMatch_iff valid]
    exact nextCronAt_of_no_match

theorem nextCronAt_isLeast_weekly :
    validateCron "30 4 * * 0,3-5" = .ok () ∧
      ∀ now, nextCronAt (fixedZone 3600) "30 4 * * 0,3-5" now = 0 →
        ¬ ∃ t, now < t ∧ t ≤ now + 525600 * minute ∧ minute ∣ t ∧
          Fits (fixedZone 3600) "30 4 * * 0,3-5" t := by
  have valid : validateCron "30 4 * * 0,3-5" = .ok () := by decide +kernel
  refine ⟨valid, fun now zero fits => ?_⟩
  have ahead := ((nextCronAt_isLeast valid 60 now).1 fits).1
  rw [show (60 : Int) * 60 = 3600 from rfl, zero] at ahead
  exact absurd ahead (by decide)

end DbBackup.Scheduler
