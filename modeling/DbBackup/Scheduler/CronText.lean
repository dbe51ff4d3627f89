import DbBackup.Lib.Grid
import DbBackup.Scheduler.FieldSets

/-!
Owns cron expressions that are written out of numbers: one minute, a list of
hours, and a list of weekdays or a star.

Contract: such an expression is accepted exactly if there is an hour and every
hour is one of the day (`validateCron_written`), and an instant fits it exactly
if its minute, hour and weekday are among the numbers (`fits_written`). Its
firings are a whole number of days apart only every day or once a week
(`daysApart_written`). Read again as a schedule, it is accepted as an expression
(`parseString_written`), and a number unless it looks like a clock time and is
none (`parseString_number`).
-/

set_option linter.all false

namespace DbBackup.Scheduler

open Config Lib.Delimited Lib.Duration Lib.GoString Lib.Grid Lib.Scan Lib.Time Lib.Zone

/-! ### Numbers -/

/-- A number that is printed without a sign and read back. -/
def Readable (n : Int) : Prop := 0 ≤ n ∧ n ≤ maxDuration

section Number

variable {n : Int} (readable : Readable n)

include readable

theorem toString_digits : (toString n).toList = Nat.toDigits 10 n.toNat := by
  obtain ⟨k, rfl⟩ := Int.eq_ofNat_of_zero_le readable.1
  exact toString_toList k

theorem isDigit_of_mem_toString {c : Char} (member : c ∈ (toString n).toList) : c.isDigit = true := by
  rw [toString_digits readable] at member
  exact isDigit_toDigits _ c member

theorem not_mem_toString {c : Char} (noDigit : c.isDigit = false) : c ∉ (toString n).toList := by
  intro member
  rw [isDigit_of_mem_toString readable member] at noDigit
  cases noDigit

theorem toString_ne_empty : toString n ≠ "" := by
  intro isEmpty
  have digits := toString_digits readable
  rw [isEmpty] at digits
  exact Nat.toDigits_ne_nil digits.symm

theorem atoi?_toString : atoi? (toString n) = some n := by
  have isText : toString n = String.ofList (Nat.toDigits 10 n.toNat) := by
    rw [← toString_digits readable, String.ofList_toList]
  have value : ((n.toNat : Nat) : Int) = n := Int.toNat_of_nonneg readable.1
  have inRange := readable.2
  have read : atoi (toString n) = (n, true) := by
    rw [isText, atoi_toDigits (by omega), value]
  unfold atoi?
  rw [read]
  rfl

theorem validateCronAtom_toString {min max : Int} :
    validateCronAtom (toString n) min max = .ok () ↔ min ≤ n ∧ n ≤ max := by
  have noStep : hasChar '/' (toString n) = false := by
    rw [← Bool.not_eq_true, hasChar_iff]
    exact not_mem_toString readable (by decide)
  have noRange : hasChar '-' (toString n) = false := by
    rw [← Bool.not_eq_true, hasChar_iff]
    exact not_mem_toString readable (by decide)
  unfold validateCronAtom
  simp only [noStep, noRange, atoi?_toString readable, Bool.false_eq_true, ↓reduceIte]
  split
  · rename_i outside
    exact ⟨nofun, fun inside => absurd inside (by omega)⟩
  · rename_i inside
    exact ⟨fun _ => by omega, fun _ => rfl⟩

/-- A number stands for itself. -/
theorem values_of_toString {min max v : Int} (inside : min ≤ n ∧ n ≤ max) :
    (∃ element, ReadsAs min (toString n) element ∧ v ∈ element.values min max) ↔ v = n := by
  have noStep : '/' ∉ (toString n).toList := not_mem_toString readable (by decide)
  have noRange : '-' ∉ (toString n).toList := not_mem_toString readable (by decide)
  have plain : hasQuote (toString n) = false := by
    apply hasQuote_of_cronChars
    intro c member
    simp [isCronChar, isDigit_of_mem_toString readable member]
  have reads : ReadsAs min (toString n) (.value n) := .value (atoi?_toString readable)
  obtain ⟨element, spec⟩ := elementSpec_value plain noStep noRange (atoi?_toString readable) inside
  constructor
  · rintro ⟨other, otherReads, inOther⟩
    rw [spec.unique other otherReads, ← spec.unique _ reads] at inOther
    exact inOther.2
  · rintro rfl
    exact ⟨.value v, reads, inside, rfl⟩

end Number

/-! ### Lists of numbers -/

def numberList (ns : List Int) : String := ",".intercalate (ns.map toString)

section NumberList

variable {ns : List Int} (readable : ∀ n ∈ ns, Readable n)

include readable

theorem splitChar_numberList (notEmpty : ns ≠ []) : splitChar ',' (numberList ns) = ns.map toString := by
  apply splitChar_intercalate rfl
  · intro part member
    obtain ⟨n, inList, rfl⟩ := List.mem_map.mp member
    exact not_mem_toString (readable n inList) (by decide)
  · simpa using notEmpty

theorem mem_numberList {c : Char} (member : c ∈ (numberList ns).toList) :
    c.isDigit = true ∨ c = ',' := by
  unfold numberList at member
  rw [String.toList_intercalate] at member
  rcases mem_intercalate member with isComma | ⟨part, inParts, inPart⟩
  · exact .inr isComma
  · obtain ⟨text, inTexts, rfl⟩ := List.mem_map.mp inParts
    obtain ⟨n, inList, rfl⟩ := List.mem_map.mp inTexts
    exact .inl (isDigit_of_mem_toString (readable n inList) inPart)

theorem numberList_ne_empty (notEmpty : ns ≠ []) : numberList ns ≠ "" := by
  intro isEmpty
  have parts := splitChar_numberList readable notEmpty
  have noParts : splitChar ',' "" = [""] := by decide
  rw [isEmpty, noParts] at parts
  have member : "" ∈ ns.map toString := by
    rw [← parts]
    exact List.mem_singleton_self _
  obtain ⟨n, inList, isText⟩ := List.mem_map.mp member
  exact toString_ne_empty (readable n inList) isText

theorem numberList_cronChars {c : Char} (member : c ∈ (numberList ns).toList) :
    isCronChar c = true := by
  rcases mem_numberList readable member with isDigit | rfl
  · simp [isCronChar, isDigit]
  · decide

theorem numberList_ne_star : numberList ns ≠ "*" := by
  intro isStar
  have member : '*' ∈ (numberList ns).toList := by
    rw [isStar]
    decide
  rcases mem_numberList readable member with isDigit | isComma
  · exact absurd isDigit (by decide)
  · exact absurd isComma (by decide)

theorem validateCronField_numberList {min max : Int} (notEmpty : ns ≠ []) :
    validateCronField (numberList ns) min max = .ok () ↔ ∀ n ∈ ns, min ≤ n ∧ n ≤ max := by
  have parts := splitChar_numberList readable notEmpty
  constructor
  · intro valid n member
    have checked := (validateCronField_ok valid).2.resolve_left (numberList_ne_star readable)
    rw [parts] at checked
    exact (validateCronAtom_toString (readable n member)).mp (checked _ (List.mem_map_of_mem member))
  · intro inside
    apply validateCronField_of_parts (fun c member => numberList_cronChars readable member)
    intro part member
    rw [parts] at member
    obtain ⟨n, inList, rfl⟩ := List.mem_map.mp member
    exact ⟨toString_ne_empty (readable n inList),
      (validateCronAtom_toString (readable n inList)).mpr (inside n inList)⟩

theorem fieldSet_numberList {min max : Int} (notEmpty : ns ≠ [])
    (inside : ∀ n ∈ ns, min ≤ n ∧ n ≤ max) : fieldSet (numberList ns) min max = {v | v ∈ ns} := by
  ext v
  show (∃ text ∈ splitChar ',' (numberList ns), _) ↔ v ∈ ns
  rw [splitChar_numberList readable notEmpty]
  constructor
  · rintro ⟨text, member, reading⟩
    obtain ⟨n, inList, rfl⟩ := List.mem_map.mp member
    rw [(values_of_toString (readable n inList) (inside n inList)).mp reading]
    exact inList
  · intro inList
    exact ⟨toString v, List.mem_map_of_mem inList,
      (values_of_toString (readable v inList) (inside v inList)).mpr rfl⟩

end NumberList

/-! ### Expressions -/

/-- The weekday field: a star where no weekday is given. -/
def weekdayField (days : List Int) : String := if days = [] then "*" else numberList days

def written (mm : Int) (hours days : List Int) : String :=
  toString mm ++ " " ++ numberList hours ++ " * * " ++ weekdayField days

/-- A minute of the hour, numbers for hours, and weekdays. -/
structure Writable (mm : Int) (hours days : List Int) : Prop where
  minute : 0 ≤ mm ∧ mm ≤ 59
  hours : ∀ h ∈ hours, Readable h
  days : ∀ d ∈ days, 0 ≤ d ∧ d ≤ 6

theorem fields_solid {text : String} (noBlank : ∀ c ∈ text.toList, isSpace c = false)
    (notEmpty : text ≠ "") : fields text = [text] := by
  have someChars : text.toList ≠ [] := by simpa using notEmpty
  rw [fields_eq, words_of_none noBlank someChars]
  simp

theorem isSpace_of_cronChar {c : Char} (isCron : isCronChar c = true) : isSpace c = false := by
  unfold isCronChar at isCron
  simp only [Bool.or_eq_true, decide_eq_true_eq] at isCron
  rcases isCron with (((isDigit | rfl) | rfl) | rfl) | rfl
  · have notBlank := @isDigit_all (fun c => !isSpace c) (by decide) c isDigit
    simpa using notBlank
  · decide
  · decide
  · decide
  · decide

theorem fieldSet_star {min max : Int} : fieldSet "*" min max = {v | min ≤ v ∧ v ≤ max} := by
  have parts : splitChar ',' "*" = ["*"] := by decide
  have noNumber : atoi? "*" = none := by decide
  have chars : "*".toList = ['*'] := rfl
  ext v
  show (∃ text ∈ splitChar ',' "*", _) ↔ _
  rw [parts]
  constructor
  · rintro ⟨text, member, element, reads, inElement⟩
    rw [List.mem_singleton.mp member] at reads
    rcases reads.toList with ⟨-, rfl⟩ | ⟨n, number, -⟩ | ⟨a, b, -, -, -, -, shape, -⟩ |
      ⟨a, b, -, -, -, shape, -⟩
    · exact inElement
    · rw [noNumber] at number
      cases number
    · have inText : '-' ∈ "*".toList := by simp [shape]
      exact absurd inText (by decide)
    · have inText : '/' ∈ "*".toList := by simp [shape]
      exact absurd inText (by decide)
  · intro inside
    exact ⟨"*", List.mem_singleton_self _, .all, .all, inside⟩

theorem readable_of_le {n bound : Int} (inside : 0 ≤ n ∧ n ≤ bound) (small : bound ≤ 59) :
    Readable n := by
  refine ⟨inside.1, ?_⟩
  unfold maxDuration
  omega

section Written

variable {mm : Int} {hours days : List Int} (writable : Writable mm hours days)

include writable

theorem Writable.readable_minute : Readable mm := readable_of_le writable.minute (by decide)

theorem Writable.readable_days : ∀ d ∈ days, Readable d :=
  fun d member => readable_of_le (writable.days d member) (by decide)

theorem minute_cronChars {c : Char} (member : c ∈ (toString mm).toList) : isCronChar c = true := by
  simp [isCronChar, isDigit_of_mem_toString writable.readable_minute member]

theorem weekdayField_cronChars {c : Char} (member : c ∈ (weekdayField days).toList) :
    isCronChar c = true := by
  unfold weekdayField at member
  split at member
  · rw [List.mem_singleton.mp member]
    decide
  · exact numberList_cronChars writable.readable_days member

theorem weekdayField_ne_empty : weekdayField days ≠ "" := by
  unfold weekdayField
  split
  · decide
  · rename_i some
    exact numberList_ne_empty writable.readable_days some

theorem fields_written : fields (written mm hours days) =
    [toString mm] ++ fields (numberList hours) ++ ["*", "*", weekdayField days] := by
  have joined : written mm hours days =
      " ".intercalate [toString mm, numberList hours, "*", "*", weekdayField days] := by
    unfold written
    apply String.toList_injective
    simp [String.intercalate_cons_cons]
  have isMinute : fields (toString mm) = [toString mm] :=
    fields_solid (fun c member => isSpace_of_cronChar (minute_cronChars writable member))
      (toString_ne_empty writable.readable_minute)
  have isWeekday : fields (weekdayField days) = [weekdayField days] :=
    fields_solid (fun c member => isSpace_of_cronChar (weekdayField_cronChars writable member))
      (weekdayField_ne_empty writable)
  have isStar : fields "*" = ["*"] := by decide
  rw [joined, fields_intercalate]
  simp only [List.flatMap_cons, List.flatMap_nil, isMinute, isWeekday, isStar]
  simp

theorem fields_hours (some : hours ≠ []) : fields (numberList hours) = [numberList hours] :=
  fields_solid
    (fun _ member => isSpace_of_cronChar (numberList_cronChars writable.hours member))
    (numberList_ne_empty writable.hours some)

theorem hasQuote_written : hasQuote (written mm hours days) = false := by
  have quoteFree {text : String} (plain : ∀ c ∈ text.toList, isCronChar c = true) :
      ∀ c ∈ text.toList, ¬ (c = '"' ∨ c = '\'') := by
    have noQuote := hasQuote_of_cronChars plain
    unfold hasQuote at noQuote
    simpa using noQuote
  unfold hasQuote written
  rw [List.any_eq_false]
  intro c member
  simp only [String.toList_append, List.mem_append] at member
  have noQuote : ¬ (c = '"' ∨ c = '\'') := by
    rcases member with (((inMinute | inBlank) | inHours) | inStars) | inDays
    · exact quoteFree (fun c inside => minute_cronChars writable inside) c inMinute
    · rw [List.mem_singleton.mp inBlank]
      decide
    · exact quoteFree (fun c inside => numberList_cronChars writable.hours inside) c inHours
    · have stars : ∀ c ∈ " * * ".toList, ¬ (c = '"' ∨ c = '\'') := by simp
      exact stars c inStars
    · exact quoteFree (fun c inside => weekdayField_cronChars writable inside) c inDays
  simpa using noQuote

theorem validateCronField_weekdayField : validateCronField (weekdayField days) 0 6 = .ok () := by
  unfold weekdayField
  split
  · rfl
  · rename_i some
    exact (validateCronField_numberList writable.readable_days some).mpr writable.days

theorem validateCronField_minute : validateCronField (toString mm) 0 59 = .ok () := by
  have listed : numberList [mm] = toString mm := rfl
  rw [← listed]
  apply (validateCronField_numberList _ (by simp)).mpr
  · simpa using writable.minute
  · simpa using writable.readable_minute

/-- Written expressions are accepted if the hours are. -/
theorem validateCron_written :
    validateCron (written mm hours days) = .ok () ↔ hours ≠ [] ∧ ∀ h ∈ hours, h ≤ 23 := by
  constructor
  · intro valid
    obtain ⟨minutes', hours', days', months', weekdays', accepted⟩ := validateCron_ok valid
    have parts := accepted.parts
    rw [fields_written writable] at parts
    have some : hours ≠ [] := by
      rintro rfl
      have noHours : fields (numberList []) = [] := by decide
      simp [noHours] at parts
    rw [fields_hours writable some] at parts
    have isHours : numberList hours = hours' := by simp_all
    have inside := (validateCronField_numberList writable.hours some).mp
      (isHours ▸ accepted.hours)
    exact ⟨some, fun h member => (inside h member).2⟩
  · rintro ⟨some, inDay⟩
    have isHours : validateCronField (numberList hours) 0 23 = .ok () :=
      (validateCronField_numberList writable.hours some).mpr
        fun h member => ⟨(writable.hours h member).1, inDay h member⟩
    have parts : fields (written mm hours days) =
        [toString mm, numberList hours, "*", "*", weekdayField days] := by
      rw [fields_written writable, fields_hours writable some]
      rfl
    exact validateCron_of_fields (hasQuote_written writable)
      ⟨parts, validateCronField_minute writable, isHours, rfl, rfl,
        validateCronField_weekdayField writable⟩

/-- The weekdays of a written expression. -/
theorem fieldSet_weekdayField :
    fieldSet (weekdayField days) 0 6 = {v | (0 ≤ v ∧ v ≤ 6) ∧ (days = [] ∨ v ∈ days)} := by
  unfold weekdayField
  split
  · rename_i noDays
    rw [fieldSet_star]
    ext v
    simp [noDays]
  · rename_i some
    rw [fieldSet_numberList writable.readable_days some writable.days]
    ext v
    constructor
    · intro member
      exact ⟨writable.days v member, .inr member⟩
    · rintro ⟨-, noDays | member⟩
      · exact absurd noDays some
      · exact member

theorem fits_written (valid : validateCron (written mm hours days) = .ok ()) (loc : Location) (t : Int) :
    Fits loc (written mm hours days) t ↔
      loc.clockMinute t = mm ∧ loc.clockHour t ∈ hours ∧ (days = [] ∨ loc.weekday t ∈ days) := by
  obtain ⟨some, inDay⟩ := (validateCron_written writable).mp valid
  obtain ⟨-, isHour, isWeekday⟩ := clock_range loc t
  have isDay : 1 ≤ (loc.civil t).2.2 ∧ (loc.civil t).2.2 ≤ 31 := civilFromDays_day _
  have isMonth : 1 ≤ (loc.civil t).2.1 ∧ (loc.civil t).2.1 ≤ 12 := civilFromDays_month _
  have parts : fields (written mm hours days) =
      [toString mm, numberList hours, "*", "*", weekdayField days] := by
    rw [fields_written writable, fields_hours writable some]
    rfl
  have minutes : fieldSet (toString mm) 0 59 = {v | v ∈ [mm]} :=
    @fieldSet_numberList [mm] (by simpa using writable.readable_minute) 0 59 (by simp)
      (by simpa using writable.minute)
  have isHours : fieldSet (numberList hours) 0 23 = {v | v ∈ hours} :=
    fieldSet_numberList writable.hours some
      fun h member => ⟨(writable.hours h member).1, inDay h member⟩
  have shape : Fits loc (written mm hours days) t ↔
      loc.clockMinute t ∈ fieldSet (toString mm) 0 59 ∧
        loc.clockHour t ∈ fieldSet (numberList hours) 0 23 ∧
        (loc.civil t).2.2 ∈ fieldSet "*" 1 31 ∧ (loc.civil t).2.1 ∈ fieldSet "*" 1 12 ∧
        loc.weekday t ∈ fieldSet (weekdayField days) 0 6 := by
    unfold Fits
    rw [parts]
    constructor
    · rintro ⟨_, _, _, _, _, same, fits⟩
      simp only [List.cons.injEq, and_true] at same
      obtain ⟨rfl, rfl, rfl, rfl, rfl⟩ := same
      exact fits
    · intro fits
      exact ⟨_, _, _, _, _, rfl, fits⟩
  rw [shape, minutes, isHours, fieldSet_star, fieldSet_star, fieldSet_weekdayField writable]
  simp only [List.mem_singleton, Set.mem_ofPred_eq, isDay, isMonth, isWeekday, and_self,
    true_and]

end Written

/-! ### Days between firings -/

/-- On any clock that is never shifted, two firings in a row are so many days
apart. -/
def DaysApart (expr : String) (n : Int) : Prop :=
  ∀ shift, Spaced (fun t => minute ∣ t ∧ cronMatch (fixedZone (shift * 60)) expr t = true) (n * day)

/-- The weekdays of a written expression. -/
def OnWeekday (days : List Int) (d : Int) : Prop := days = [] ∨ d ∈ days

section Firing

variable {mm : Int} {hours days : List Int} (writable : Writable mm hours days)
  (valid : validateCron (written mm hours days) = .ok ())

include writable valid

theorem fires_written (shift q : Int) :
    cronMatch (fixedZone (shift * 60)) (written mm hours days) (q * minute) = true ↔
      (q + shift) % 60 = mm ∧ (q + shift) % 1440 / 60 ∈ hours ∧
        OnWeekday days (((q + shift) / 1440 + 4) % 7) := by
  obtain ⟨isMinute, isHour, isDay⟩ := clock_fixed shift q
  have isWeekday : (fixedZone (shift * 60)).weekday (q * minute) = ((q + shift) / 1440 + 4) % 7 := by
    unfold Location.weekday
    rw [isDay]
  rw [cronMatch_iff valid, fits_written writable valid, isMinute, isHour, isWeekday]
  rfl

/-- Two hours of a day are less than a day apart. -/
theorem not_daysApart_written (everyDay : days = []) {early late n : Int} (inEarly : early ∈ hours)
    (inLate : late ∈ hours) (later : early < late) (positive : 1 ≤ n) :
    ¬ DaysApart (written mm hours days) n := by
  intro apart
  have inDay := ((validateCron_written writable).mp valid).2
  have isMinute := writable.minute
  have fires {h : Int} (member : h ∈ hours) : minute ∣ (h * 60 + mm) * minute ∧
      cronMatch (fixedZone (0 * 60)) (written mm hours days) ((h * 60 + mm) * minute) = true := by
    have low := (writable.hours h member).1
    have high := inDay h member
    refine ⟨Int.dvd_mul_left .., (fires_written writable valid 0 _).mpr ⟨by omega, ?_, .inl everyDay⟩⟩
    have isHour : (h * 60 + mm + 0) % 1440 / 60 = h := by omega
    rwa [isHour]
  have low := (writable.hours early inEarly).1
  have high := inDay late inLate
  have next := ((apart 0).next (fires inEarly) (fires inLate) (by
    unfold minute second
    omega)).2.1
  unfold day hour minute second at next
  omega

end Firing

theorem daysApart_written {mm h : Int} {days : List Int} (writable : Writable mm [h] days)
    (valid : validateCron (written mm [h] days) = .ok ()) (n : Int) :
    DaysApart (written mm [h] days) n ↔
      (n = 1 ∧ ∀ d, 0 ≤ d → d ≤ 6 → OnWeekday days d) ∨
      (n = 7 ∧ ∃ d, 0 ≤ d ∧ d ≤ 6 ∧ ∀ other, 0 ≤ other → other ≤ 6 → (OnWeekday days other ↔ other = d)) := by
  have isMinute := writable.minute
  have low := (writable.hours h (by simp)).1
  have high := ((validateCron_written writable).mp valid).2 h (by simp)
  -- one firing on every day whose weekday is listed
  have firings (shift t : Int) :
      (minute ∣ t ∧ cronMatch (fixedZone (shift * 60)) (written mm [h] days) t = true) ↔
        ∃ k, OnWeekday days ((k + 4) % 7) ∧ t = (h * 60 + mm - shift) * minute + k * day := by
    constructor
    · rintro ⟨⟨q, rfl⟩, fires⟩
      rw [Int.mul_comm minute q, fires_written writable valid, List.mem_singleton] at fires
      obtain ⟨atMinute, atHour, onDay⟩ := fires
      refine ⟨(q + shift) / 1440, onDay, ?_⟩
      unfold day hour minute second
      omega
    · rintro ⟨k, onDay, rfl⟩
      have whole : (h * 60 + mm - shift) * minute + k * day =
          (h * 60 + mm - shift + k * 1440) * minute := by
        unfold day hour minute second
        omega
      have isDay : (h * 60 + mm - shift + k * 1440 + shift) / 1440 = k := by omega
      rw [whole]
      refine ⟨Int.dvd_mul_left .., (fires_written writable valid shift _).mpr ⟨by omega, ?_, ?_⟩⟩
      · rw [List.mem_singleton]
        omega
      · rwa [isDay]
  have dayPositive : 0 < day := by decide
  have onDays : DaysApart (written mm [h] days) n ↔
      Spaced (fun k => OnWeekday days ((k + 4) % 7)) n := by
    unfold DaysApart
    simp only [firings]
    simp only [spaced_scaled dayPositive, forall_const]
  have periodic : ∀ k, OnWeekday days ((k + (7 : Nat) + 4) % 7) ↔ OnWeekday days ((k + 4) % 7) := by
    intro k
    have same : (k + (7 : Nat) + 4) % 7 = (k + 4) % 7 := by omega
    rw [same]
  have onSomeDay : ∃ d, 0 ≤ d ∧ d ≤ 6 ∧ OnWeekday days d := by
    cases days with
    | nil => exact ⟨0, by omega, by omega, .inl rfl⟩
    | cons d rest =>
      obtain ⟨dLow, dHigh⟩ := writable.days d (by simp)
      exact ⟨d, dLow, dHigh, .inr (by simp)⟩
  have weekdayOf {d : Int} (dLow : 0 ≤ d) (dHigh : d ≤ 6) : (d - 4 + 4) % 7 = d := by omega
  obtain ⟨d, dLow, dHigh, onDay⟩ := onSomeDay
  rw [onDays, spaced_iff_of_prime (by decide : Nat.Prime 7) periodic
    ⟨d - 4, by rwa [weekdayOf dLow dHigh]⟩]
  refine or_congr (and_congr Iff.rfl ⟨?_, ?_⟩) (and_congr Iff.rfl ⟨?_, ?_⟩)
  · intro all other otherLow otherHigh
    have onOther := all (other - 4)
    rwa [weekdayOf otherLow otherHigh] at onOther
  · intro all k
    exact all _ (by omega) (by omega)
  · intro oneClass
    refine ⟨d, dLow, dHigh, fun other otherLow otherHigh => ⟨fun onOther => ?_, ?_⟩⟩
    · have divides := oneClass (d - 4) (other - 4) (by rwa [weekdayOf dLow dHigh])
        (by rwa [weekdayOf otherLow otherHigh])
      omega
    · rintro rfl
      exact onDay
  · rintro ⟨single, -, -, only⟩ x y onX onY
    have sameX := (only _ (by omega) (by omega)).mp onX
    have sameY := (only _ (by omega) (by omega)).mp onY
    omega

/-! ### Texts that are read again -/

section Texts

variable {edition : Edition}

theorem unquote_of_noQuote {text : String} (noQuote : hasQuote text = false) :
    unquoteScheduleValue text = text := by
  have kept : ∀ fuel, unquoteLoop fuel (trimSpace text).toList = (trimSpace text).toList := by
    intro fuel
    cases fuel with
    | zero => rfl
    | succ fuel =>
      rw [unquoteLoop, if_neg]
      rintro ⟨-, quoted, -⟩
      obtain ⟨before, after, shape, -⟩ := trimSpace_parts text
      have quoteIn {c : Char} (first : (trimSpace text).toList.head? = some c) : c ∈ text.toList := by
        rw [shape, String.toList_append, String.toList_append]
        simp [List.mem_of_mem_head? first]
      unfold hasQuote at noQuote
      rw [List.any_eq_false] at noQuote
      rcases quoted with double | single
      · exact noQuote _ (quoteIn double) (by decide)
      · exact noQuote _ (quoteIn single) (by decide)
  unfold unquoteScheduleValue
  rw [if_pos (kept _)]

theorem hasPrefix_plus_of_not_mem {text : String} (absent : '+' ∉ text.toList) :
    hasPrefix text "+" = false := by
  rw [← Bool.not_eq_true, hasPrefix_iff]
  rintro ⟨rest, rfl⟩
  exact absent (by simp)

/-- A schedule without an offset and without days is within the limits. -/
theorem supporterSchedule_plain (edition : Edition) {s : Schedule} (noStart : s.start = "")
    (noDays : s.days = {}) (noExclude : s.excludeDays = {}) (noBlackout : s.blackout = none) :
    ∃ read, supporterSchedule edition s = .ok read := by
  unfold supporterSchedule
  split
  · exact ⟨s, rfl⟩
  · unfold communityScheduleLimits
    rw [noStart, noDays, noExclude, noBlackout]
    exact ⟨_, rfl⟩

theorem parseCronString_iff {expr : String} :
    (∃ read, parseCronString edition expr = .ok read) ↔ validateCron expr = .ok () := by
  unfold parseCronString
  constructor
  · rintro ⟨read, isRead⟩
    obtain ⟨done, valid, -⟩ := bind_eq_ok.mp isRead
    exact valid
  · intro valid
    obtain ⟨read, allowed⟩ := @supporterSchedule_plain edition { cron := expr } rfl rfl rfl rfl
    exact ⟨read, bind_eq_ok.mpr ⟨(), valid, allowed⟩⟩

/-- A list of clock times starts with a text of four or five bytes. -/
theorem isTimeList_of_long {text first : String} {others : List String}
    (tokens : clockTokens text = first :: others) (long : 5 < first.utf8ByteSize) :
    isTimeList text = false := by
  have noClock : parseClock first = none := by
    unfold parseClock
    rw [if_neg (by omega), if_neg (by omega)]
  unfold isTimeList
  rw [tokens]
  simp [noClock]

section Recurring

variable {mm h : Int} {days : List Int} (writable : Writable mm [h] days)

include writable

theorem isTimeList_written : isTimeList (written mm [h] days) = false := by
  have hourText : numberList [h] = toString h := rfl
  have minuteReadable := writable.readable_minute
  have hourReadable := writable.hours h (by simp)
  obtain ⟨first, others, parts, solid, notEmpty⟩ : ∃ first others,
      splitChar ',' (weekdayField days) = first :: others ∧
        (∀ c ∈ first.toList, isSpace c = false) ∧ first.toList ≠ [] := by
    unfold weekdayField
    split
    · exact ⟨"*", [], by decide, by simp; decide, by decide⟩
    · rename_i some
      rw [splitChar_numberList writable.readable_days some]
      obtain ⟨d, rest, rfl⟩ := List.exists_cons_of_ne_nil some
      have readable := writable.readable_days d (by simp)
      refine ⟨toString d, rest.map toString, rfl, fun c member => ?_, ?_⟩
      · simpa using @isDigit_all (fun c => !isSpace c) (by decide) c
          (isDigit_of_mem_toString readable member)
      · simpa using toString_ne_empty readable
  have noComma : ',' ∉ (toString mm ++ " " ++ toString h ++ " * * ").toList := by
    simp only [String.toList_append, List.mem_append, not_or]
    exact ⟨⟨⟨not_mem_toString minuteReadable (by decide), by decide⟩,
      not_mem_toString hourReadable (by decide)⟩, by decide⟩
  -- the token before the first comma has all fields but the last
  have token : trimSpace (toString mm ++ " " ++ toString h ++ " * * " ++ first) =
      toString mm ++ " " ++ toString h ++ " * * " ++ first := by
    apply trimSpace_of_ends
    · intro c begins
      have digits : (toString mm).toList ≠ [] := by simpa using toString_ne_empty minuteReadable
      simp only [String.toList_append, List.append_assoc] at begins
      rw [List.head?_append_of_ne_nil _ digits] at begins
      exact isSpace_of_cronChar (minute_cronChars writable (List.mem_of_mem_head? begins))
    · intro c ends
      rw [String.toList_append, List.getLast?_append_of_ne_nil _ notEmpty] at ends
      exact solid c (List.mem_of_mem_getLast? ends)
  have tokens : clockTokens (written mm [h] days) =
      (toString mm ++ " " ++ toString h ++ " * * " ++ first) :: others.map trimSpace := by
    unfold clockTokens written
    rw [hourText, splitChar_append_of_not_mem noComma parts, List.map_cons, token]
  apply isTimeList_of_long tokens
  have stars : " * * ".utf8ByteSize = 5 := rfl
  have blank : " ".utf8ByteSize = 1 := rfl
  simp only [String.utf8ByteSize_append, stars, blank]
  omega

theorem parseString_written : (∃ read, parseString edition (written mm [h] days) = .ok read) ↔
    validateCron (written mm [h] days) = .ok () := by
  have same := unquote_of_noQuote (hasQuote_written writable)
  have isStar : '*' ∈ (written mm [h] days).toList := by simp [written]
  have noPlus : '+' ∉ (written mm [h] days).toList := by
    unfold written
    simp only [String.toList_append, List.mem_append, not_or]
    refine ⟨⟨⟨⟨?_, by decide⟩, ?_⟩, by decide⟩, ?_⟩
    · exact not_mem_toString writable.readable_minute (by decide)
    · exact not_mem_toString (writable.hours h (by simp)) (by decide)
    · intro inDays
      exact absurd (weekdayField_cronChars writable inDays) (by decide)
  have notDigits : allDigits (written mm [h] days) = false := by
    unfold allDigits
    rw [Bool.and_eq_false_iff]
    left
    rw [List.all_eq_false]
    exact ⟨'*', isStar, by decide⟩
  rw [← @parseCronString_iff edition]
  unfold parseString
  simp only [same, hasPrefix_plus_of_not_mem noPlus, notDigits, isTimeList_written writable,
    hasChar_iff.mpr isStar, Bool.false_eq_true, and_false, ↓reduceIte]

end Recurring

section Number

variable {n : Int} (readable : Readable n)

include readable

theorem clockTokens_number : clockTokens (toString n) = [toString n] := by
  have noComma : ',' ∉ (toString n).toList := not_mem_toString readable (by decide)
  have solid : trimSpace (toString n) = toString n := by
    apply trimSpace_of_noBlank
    intro c member
    simpa using @isDigit_all (fun c => !isSpace c) (by decide) c
      (isDigit_of_mem_toString readable member)
  unfold clockTokens
  rw [splitChar_of_not_mem noComma, List.map_singleton, solid]

theorem parseTimeString_number :
    (∃ read, parseTimeString edition (toString n) = .ok read) ↔
      (parseClock (toString n)).isSome = true := by
  have kept : [toString n].filter (fun token => token ≠ "") = [toString n] := by
    rw [List.filter_cons_of_pos (by simpa using toString_ne_empty readable), List.filter_nil]
  unfold parseTimeString parseTimes
  rw [clockTokens_number readable, kept, List.mapM_cons, List.mapM_nil]
  cases parseClock (toString n) with
  | none => exact ⟨nofun, nofun⟩
  | some m =>
    exact ⟨fun _ => rfl, fun _ => supporterSchedule_plain edition rfl rfl rfl rfl⟩

/-- A number is read as an interval, or as a clock time where it has four digits. -/
theorem parseString_number : (∃ read, parseString edition (toString n) = .ok read) ↔
    ((toString n).utf8ByteSize = 4 → (parseClock (toString n)).isSome = true) := by
  have digits : allDigits (toString n) = true := by
    unfold allDigits
    rw [Bool.and_eq_true, List.all_eq_true, decide_eq_true_eq]
    exact ⟨fun c member => isDigit_of_mem_toString readable member, toString_ne_empty readable⟩
  have noQuote : hasQuote (toString n) = false := by
    apply hasQuote_of_cronChars
    intro c member
    simp [isCronChar, isDigit_of_mem_toString readable member]
  have noStar : hasChar '*' (toString n) = false := by
    rw [← Bool.not_eq_true, hasChar_iff]
    exact not_mem_toString readable (by decide)
  have isList : isTimeList (toString n) = (parseClock (toString n)).isSome := by
    unfold isTimeList
    rw [clockTokens_number readable]
    simp only [List.all_cons, List.all_nil, Bool.and_true, Bool.and_eq_right_iff_imp]
    intro _
    simpa using toString_ne_empty readable
  unfold parseString
  simp only [unquote_of_noQuote noQuote, digits, noStar, isList,
    hasPrefix_plus_of_not_mem (not_mem_toString readable (by decide)), Bool.false_eq_true, and_true,
    ↓reduceIte]
  by_cases four : (toString n).utf8ByteSize = 4
  · rw [if_pos four, parseTimeString_number readable]
    exact ⟨fun isClock _ => isClock, fun isClock => isClock four⟩
  · rw [if_neg four]
    refine ⟨fun _ isFour => absurd isFour four, fun _ => ?_⟩
    by_cases isClock : (parseClock (toString n)).isSome = true
    · rw [if_pos isClock]
      exact (parseTimeString_number readable).mpr isClock
    · rw [if_neg isClock]
      exact supporterSchedule_plain edition rfl rfl rfl rfl

end Number

end Texts

end DbBackup.Scheduler
