import DbBackup.Config.Load
import DbBackup.Lib.Zone

/-!
Owns the days of a schedule: what a day list matches, how lists of tokens are
decoded, and the windows of a blackout (`internal/config/schedule.go`,
`supported/config/days.go`).

Decoding a sequence keeps the days of its last text only, so a sequence agrees
with its comma form exactly if those days hold all the others
(`formsAgree_iff`). A window over midnight is tested against the date of the
instant, so it is one window exactly if it ends at midnight or every day is
listed (`oneWindow_iff`).
-/

set_option linter.all false

namespace DbBackup.Config

open Lib.Delimited Lib.GoString Lib.Scan Lib.Time Lib.Zone

/-! ### Days that match -/

def DayList.matches (days : DayList) (loc : Location) (t : Int) : Bool :=
  if days.isEmpty then true
  else days.weekdays.contains (loc.weekday t).toNat || days.dom.contains (loc.civil t).2.2

/-- Whether the list names a date, counted in days from the epoch. -/
def DayList.names (days : DayList) (date : Int) : Prop :=
  ((date + 4) % 7).toNat ∈ days.weekdays ∨ (civilFromDays date).2.2 ∈ days.dom

/-- The list names every day of the week, or every day of the month. -/
def DayList.Full (days : DayList) : Prop :=
  (∀ weekday < 7, weekday ∈ days.weekdays) ∨ ∀ date : Int, 1 ≤ date → date ≤ 31 → date ∈ days.dom

variable {days : DayList}

theorem DayList.matches_iff (notEmpty : days.isEmpty = false) (loc : Location)
    (t : Int) : days.matches loc t = true ↔ days.names (loc.localDay t) := by
  unfold DayList.matches DayList.names Location.weekday Location.civil
  rw [notEmpty, if_neg (by decide), Bool.or_eq_true, List.contains_iff_mem, List.contains_iff_mem]

/-- The first of January of seven years, one for each weekday, from Sunday on. -/
def januaries : List Int := [17167, 17532, 17897, 18262, 20454, 18628, 18993]

/-- Every weekday falls on every day of the month. -/
theorem exists_date {weekday : Nat} (isWeekday : weekday < 7) {date : Int} (low : 1 ≤ date)
    (high : date ≤ 31) :
    ∃ day, ((day + 4) % 7).toNat = weekday ∧ (civilFromDays day).2.2 = date := by
  have dates : ∀ first : Fin 7, ∀ date : Fin 31,
      (civilFromDays (januaries.getD first 0 + date.val)).2.2 = date.val + 1 := by
    decide +kernel
  have weekdays : ∀ first : Fin 7, (januaries.getD first 0 + 4) % 7 = first.val := by decide
  obtain ⟨first, isFirst, inWeek⟩ : ∃ first : Nat, first < 7 ∧
      ((first : Int) + (date - 1)) % 7 = weekday :=
    ⟨(((weekday : Int) - (date - 1)) % 7).toNat, by omega⟩
  have shown := weekdays ⟨first, isFirst⟩
  have isDate := dates ⟨first, isFirst⟩ ⟨(date - 1).toNat, by omega⟩
  simp only at shown isDate
  refine ⟨januaries.getD first 0 + (date - 1).toNat, by omega, ?_⟩
  rw [isDate]
  omega

theorem not_full_iff :
    ¬ days.Full ↔ (∃ weekday < 7, weekday ∉ days.weekdays) ∧
      ∃ date : Int, 1 ≤ date ∧ date ≤ 31 ∧ date ∉ days.dom := by
  unfold DayList.Full
  push Not
  rfl

/-- A full list names every date, and no other list does. -/
theorem DayList.full_iff : days.Full ↔ ∀ date, days.names date := by
  constructor
  · rintro (weekdays | dates) date
    · exact .inl (weekdays _ (by omega))
    · obtain ⟨low, high⟩ := civilFromDays_day date
      exact .inr (dates _ low high)
  · intro all
    by_contra notFull
    obtain ⟨⟨weekday, isWeekday, noWeekday⟩, date, low, high, noDate⟩ := not_full_iff.mp notFull
    obtain ⟨day, sameWeekday, sameDate⟩ := exists_date isWeekday low high
    rcases all day with named | named
    · rw [sameWeekday] at named
      exact noWeekday named
    · rw [sameDate] at named
      exact noDate named

/-! ### Lists that are read -/

/-- The values of a day list are days. -/
structure DayList.Valid (days : DayList) : Prop where
  weekdays : ∀ weekday ∈ days.weekdays, weekday < 7
  dom : ∀ date ∈ days.dom, 1 ≤ date ∧ date ≤ 31

def DayList.append (first second : DayList) : DayList :=
  { weekdays := first.weekdays ++ second.weekdays, dom := first.dom ++ second.dom }

@[simp] theorem DayList.nil_append (days : DayList) : DayList.append {} days = days := rfl

@[simp] theorem DayList.append_nil (days : DayList) : days.append {} = days := by
  simp [DayList.append]

theorem DayList.append_assoc (first second third : DayList) :
    (first.append second).append third = first.append (second.append third) := by
  simp [DayList.append]

theorem parseWeekday_range {tok : String} {days : List Nat} (read : parseWeekday tok = some days) :
    ∀ weekday ∈ days, weekday < 7 := by
  unfold parseWeekday at read
  simp only at read
  repeat' split at read
  all_goals first
    | (rw [← Option.some.inj read]; decide)
    | skip
  obtain ⟨index, found, rfl⟩ := Option.map_eq_some_iff.mp read
  intro weekday member
  rw [List.mem_singleton.mp member]
  exact (List.findIdx?_eq_some_iff_getElem.mp found).1

/-- A token adds its own days to the ones before it. -/
theorem parseDayToken_eq (data : DayList) (tok : String) :
    parseDayToken data tok = (parseDayToken {} tok).map data.append := by
  unfold parseDayToken
  cases atoi? tok with
  | some n =>
    simp only
    split
    · rfl
    · simp [Except.map, DayList.append]
  | none =>
    simp only
    cases parseWeekday tok with
    | some days => simp [Except.map, DayList.append]
    | none => rfl

theorem parseDayToken_valid {data days : DayList} {tok : String} (valid : data.Valid)
    (read : parseDayToken data tok = .ok days) : days.Valid := by
  unfold parseDayToken at read
  split at read
  · split at read
    · cases read
    · rename_i inside
      rw [← Except.ok.inj read]
      refine ⟨valid.weekdays, fun date member => ?_⟩
      rcases List.mem_append.mp member with before | isNew
      · exact valid.dom date before
      · rw [List.mem_singleton.mp isNew]
        omega
  · split at read
    · rename_i weekdays isWeekday
      rw [← Except.ok.inj read]
      refine ⟨fun weekday member => ?_, valid.dom⟩
      rcases List.mem_append.mp member with before | isNew
      · exact valid.weekdays weekday before
      · exact parseWeekday_range isWeekday weekday isNew
    · cases read

theorem foldlM_parseDayToken_eq (toks : List String) (data : DayList) :
    toks.foldlM parseDayToken data = (toks.foldlM parseDayToken {}).map data.append := by
  induction toks generalizing data with
  | nil => simp [Except.map, pure, Except.pure]
  | cons tok rest ih =>
    rw [List.foldlM_cons, List.foldlM_cons, parseDayToken_eq]
    cases parseDayToken {} tok with
    | error error => rfl
    | ok days =>
      show rest.foldlM parseDayToken (data.append days) = (rest.foldlM parseDayToken days).map _
      rw [ih, ih days]
      cases rest.foldlM parseDayToken {} with
      | error error => rfl
      | ok others => simp [Except.map, DayList.append_assoc]

/-- The tokens of a text. -/
def dayTokens (s : String) : List String := ((splitChar ',' s).map trimSpace).filter (· ≠ "")

theorem parseDayList_valid {s : String} (read : parseDayList s = .ok days) : days.Valid := by
  have nothing : ({} : DayList).Valid := ⟨by simp, by simp⟩
  exact foldlM_ok_keeps (fun _ _ _ parsed valid => parseDayToken_valid valid parsed) nothing read

variable {texts : List String}

theorem dayTokens_join (notEmpty : texts ≠ []) :
    dayTokens (",".intercalate texts) = texts.flatMap dayTokens := by
  have parts : splitChar ',' (",".intercalate texts) = texts.flatMap (splitChar ',') := by
    have chars : (",".intercalate texts).toList = [','].intercalate (texts.map String.toList) := by
      rw [String.toList_intercalate]
      rfl
    unfold splitChar
    rw [chars, splitOn_intercalate_flatMap _ (by simpa using notEmpty), List.flatMap_map,
      List.map_flatMap]
  unfold dayTokens
  rw [parts, List.map_flatMap, List.filter_flatMap]

/-- Texts that name at least one day each. -/
def NameDays (texts : List String) : Prop :=
  ∀ text ∈ texts, ∃ days, parseDayList text = .ok days ∧ days.isEmpty = false

theorem foldlM_tokens (accepted : NameDays texts) :
    ∃ joined, (texts.flatMap dayTokens).foldlM parseDayToken {} = .ok joined ∧
      (∀ weekday, weekday ∈ joined.weekdays ↔
        ∃ text ∈ texts, ∃ days, parseDayList text = .ok days ∧ weekday ∈ days.weekdays) ∧
      ∀ date, date ∈ joined.dom ↔
        ∃ text ∈ texts, ∃ days, parseDayList text = .ok days ∧ date ∈ days.dom := by
  induction texts with
  | nil => exact ⟨{}, rfl, by simp, by simp⟩
  | cons text rest ih =>
    obtain ⟨days, isDays, -⟩ := accepted text List.mem_cons_self
    obtain ⟨others, isOthers, otherWeekdays, otherDates⟩ :=
      ih (List.forall_mem_cons.mp accepted).2
    have firstTokens : (dayTokens text).foldlM parseDayToken {} = .ok days := isDays
    refine ⟨days.append others, ?_, fun weekday => ?_, fun date => ?_⟩
    · rw [List.flatMap_cons, List.foldlM_append, firstTokens]
      show (rest.flatMap dayTokens).foldlM parseDayToken days = _
      rw [foldlM_parseDayToken_eq, isOthers]
      rfl
    · simp only [DayList.append, List.mem_append, otherWeekdays, List.mem_cons, exists_eq_or_imp,
        isDays, Except.ok.injEq, exists_eq_left']
    · simp only [DayList.append, List.mem_append, otherDates, List.mem_cons, exists_eq_or_imp,
        isDays, Except.ok.injEq, exists_eq_left']

theorem DayList.exists_of_not_empty (notEmpty : days.isEmpty = false) :
    (∃ weekday, weekday ∈ days.weekdays) ∨ ∃ date, date ∈ days.dom := by
  unfold DayList.isEmpty at notEmpty
  rw [Bool.and_eq_false_iff, List.isEmpty_eq_false_iff, List.isEmpty_eq_false_iff] at notEmpty
  exact notEmpty.imp (List.exists_mem_of_ne_nil _) (List.exists_mem_of_ne_nil _)

theorem DayList.not_empty_of_mem
    (named : (∃ weekday, weekday ∈ days.weekdays) ∨ ∃ date, date ∈ days.dom) :
    days.isEmpty = false := by
  unfold DayList.isEmpty
  rw [Bool.and_eq_false_iff, List.isEmpty_eq_false_iff, List.isEmpty_eq_false_iff]
  exact named.imp (fun ⟨_, member⟩ => List.ne_nil_of_mem member)
    fun ⟨_, member⟩ => List.ne_nil_of_mem member

/-- The comma form names what one of the texts names. -/
theorem parseDayList_join (notEmpty : texts ≠ []) (accepted : NameDays texts) :
    ∃ joined, parseDayList (",".intercalate texts) = .ok joined ∧ joined.isEmpty = false ∧
      (∀ weekday, weekday ∈ joined.weekdays ↔
        ∃ text ∈ texts, ∃ days, parseDayList text = .ok days ∧ weekday ∈ days.weekdays) ∧
      ∀ date, date ∈ joined.dom ↔
        ∃ text ∈ texts, ∃ days, parseDayList text = .ok days ∧ date ∈ days.dom := by
  obtain ⟨joined, isJoined, weekdays, dates⟩ := foldlM_tokens accepted
  refine ⟨joined, ?_, ?_, weekdays, dates⟩
  · rw [← isJoined, ← dayTokens_join notEmpty]
    rfl
  · obtain ⟨text, member⟩ := List.exists_mem_of_ne_nil _ notEmpty
    obtain ⟨days, isDays, named⟩ := accepted text member
    apply DayList.not_empty_of_mem
    rcases DayList.exists_of_not_empty named with ⟨weekday, inDays⟩ | ⟨date, inDays⟩
    · exact .inl ⟨weekday, (weekdays weekday).mpr ⟨text, member, days, isDays, inDays⟩⟩
    · exact .inr ⟨date, (dates date).mpr ⟨text, member, days, isDays, inDays⟩⟩

/-- A sequence is decoded to the days of its last text. -/
theorem decodeDays_sequence {licensed : Bool} {texts : List String} (accepted : NameDays texts)
    {last : String} (isLast : texts.getLast? = some last) :
    decodeDays (.supporter licensed) (some (.sequence texts)) = parseDayList last := by
  have folded : ∀ (texts : List String) (start : DayList), NameDays texts →
      texts.getLast? = some last →
      texts.foldlM (fun _ text => parseDayList text) start = parseDayList last := by
    intro texts
    induction texts with
    | nil =>
      intro start _ isLast
      cases isLast
    | cons text rest ih =>
      intro start accepted isLast
      obtain ⟨days, isDays, -⟩ := accepted text List.mem_cons_self
      rw [List.foldlM_cons, isDays]
      show rest.foldlM _ days = _
      cases rest with
      | nil =>
        have same : text = last := by simpa using isLast
        rw [← same, isDays]
        rfl
      | cons next others =>
        refine ih days
          (List.forall_mem_cons.mp accepted).2 ?_
        rwa [List.getLast?_cons_cons] at isLast
  exact folded texts {} accepted isLast

/-! ### Sequences and commas -/

/-- The sequence and the comma form match the same instants: those that one of the
texts matches. -/
def FormsAgree (licensed : Bool) (texts : List String) : Prop :=
  ∃ listed joined, decodeDays (.supporter licensed) (some (.sequence texts)) = .ok listed ∧
    decodeDays (.supporter licensed) (some (.scalar (",".intercalate texts))) = .ok joined ∧
    ∀ loc t, listed.matches loc t = joined.matches loc t ∧
      (joined.matches loc t = true ↔
        ∃ text ∈ texts, ∃ days, parseDayList text = .ok days ∧ days.matches loc t = true)

/-- The days of the last text are all days, or hold the days of every text. -/
def LastCovers (texts : List String) : Prop :=
  ∀ last, texts.getLast? = some last → ∀ lastDays, parseDayList last = .ok lastDays →
    lastDays.Full ∨ ∀ text ∈ texts, ∀ days, parseDayList text = .ok days →
      days.weekdays ⊆ lastDays.weekdays ∧ days.dom ⊆ lastDays.dom

/-- An instant on a given date. -/
theorem localDay_utc (date : Int) : (fixedZone 0).localDay (date * day) = date := by
  show (date * day / second + 0) / 86400 = date
  unfold day hour minute second
  omega

section Forms

variable {texts : List String}

theorem subset_of_names {days lastDays : DayList} (valid : days.Valid) (notFull : ¬ lastDays.Full)
    (names : ∀ date, days.names date → lastDays.names date) :
    days.weekdays ⊆ lastDays.weekdays ∧ days.dom ⊆ lastDays.dom := by
  obtain ⟨⟨noWeekday, isWeekday, notWeekday⟩, noDate, low, high, notDate⟩ := not_full_iff.mp notFull
  refine ⟨fun weekday member => ?_, fun date member => ?_⟩
  · obtain ⟨day, sameWeekday, sameDate⟩ := exists_date (valid.weekdays weekday member) low high
    rcases names day (.inl (sameWeekday ▸ member)) with named | named
    · rwa [sameWeekday] at named
    · rw [sameDate] at named
      exact absurd named notDate
  · obtain ⟨dateLow, dateHigh⟩ := valid.dom date member
    obtain ⟨day, sameWeekday, sameDate⟩ := exists_date isWeekday dateLow dateHigh
    rcases names day (.inr (sameDate ▸ member)) with named | named
    · rw [sameWeekday] at named
      exact absurd named notWeekday
    · rwa [sameDate] at named

/-- The two forms of a list agree exactly if its last text covers the others. -/
theorem formsAgree_iff (licensed : Bool) (notEmpty : texts ≠ []) (accepted : NameDays texts) :
    FormsAgree licensed texts ↔ LastCovers texts := by
  obtain ⟨joined, isJoined, joinedNamed, weekdays, dates⟩ := parseDayList_join notEmpty accepted
  obtain ⟨last, isLast⟩ := Option.isSome_iff_exists.mp (List.getLast?_isSome.mpr notEmpty)
  have lastMember : last ∈ texts := List.mem_of_getLast? isLast
  obtain ⟨lastDays, isLastDays, lastNamed⟩ := accepted last lastMember
  have isListed := @decodeDays_sequence licensed texts accepted last isLast
  rw [isLastDays] at isListed
  have isScalar : decodeDays (.supporter licensed) (some (.scalar (",".intercalate texts))) =
      .ok joined := by
    show (parseDayList (",".intercalate texts) >>= pure) = _
    rw [isJoined]
    rfl
  have joinedNames : ∀ date, joined.names date ↔
      ∃ text ∈ texts, ∃ days, parseDayList text = .ok days ∧ days.names date := by
    intro date
    unfold DayList.names
    rw [weekdays, dates]
    constructor
    · rintro (⟨text, member, days, isDays, named⟩ | ⟨text, member, days, isDays, named⟩)
      · exact ⟨text, member, days, isDays, .inl named⟩
      · exact ⟨text, member, days, isDays, .inr named⟩
    · rintro ⟨text, member, days, isDays, named | named⟩
      · exact .inl ⟨text, member, days, isDays, named⟩
      · exact .inr ⟨text, member, days, isDays, named⟩
  have lastJoined : ∀ date, lastDays.names date → joined.names date := fun date named =>
    (joinedNames date).mpr ⟨last, lastMember, lastDays, isLastDays, named⟩
  have eachText : ∀ loc t, (∃ text ∈ texts, ∃ days, parseDayList text = .ok days ∧
      days.matches loc t = true) ↔ joined.names (loc.localDay t) := by
    intro loc t
    rw [joinedNames]
    constructor
    · rintro ⟨text, member, days, isDays, matched⟩
      obtain ⟨other, isOther, named⟩ := accepted text member
      rw [isDays] at isOther
      rw [← Except.ok.inj isOther] at named
      exact ⟨text, member, days, isDays, (DayList.matches_iff named loc t).mp matched⟩
    · rintro ⟨text, member, days, isDays, names⟩
      obtain ⟨other, isOther, named⟩ := accepted text member
      rw [isDays] at isOther
      rw [← Except.ok.inj isOther] at named
      exact ⟨text, member, days, isDays, (DayList.matches_iff named loc t).mpr names⟩
  constructor
  · rintro ⟨listed, joined', isListed', isScalar', agree⟩ last' isLast' lastDays' isLastDays'
    rw [isListed] at isListed'
    rw [isScalar] at isScalar'
    obtain rfl := Except.ok.inj isListed'
    obtain rfl := Except.ok.inj isScalar'
    obtain rfl := Option.some.inj (isLast.symm.trans isLast')
    obtain rfl := Except.ok.inj (isLastDays.symm.trans isLastDays')
    by_cases full : lastDays.Full
    · exact .inl full
    · right
      intro text member days isDays
      apply subset_of_names (parseDayList_valid isDays) full
      intro date named
      have same := (agree (fixedZone 0) (date * day)).1
      have inJoined : joined.matches (fixedZone 0) (date * day) = true := by
        rw [DayList.matches_iff joinedNamed, localDay_utc]
        exact (joinedNames date).mpr ⟨text, member, days, isDays, named⟩
      rw [inJoined, DayList.matches_iff lastNamed, localDay_utc] at same
      exact same
  · intro covers
    refine ⟨lastDays, joined, isListed, isScalar, fun loc t => ⟨?_, ?_⟩⟩
    · apply Bool.eq_iff_iff.mpr
      rw [DayList.matches_iff lastNamed, DayList.matches_iff joinedNamed]
      refine ⟨lastJoined _, fun named => ?_⟩
      rcases covers last isLast lastDays isLastDays with full | holds
      · exact DayList.full_iff.mp full _
      · obtain ⟨text, member, days, isDays, named⟩ := (joinedNames _).mp named
        obtain ⟨inWeekdays, inDates⟩ := holds text member days isDays
        exact named.imp (fun found => inWeekdays found) fun found => inDates found
    · rw [eachText, DayList.matches_iff joinedNamed]

end Forms

theorem formsAgree_iff_weekend : FormsAgree true ["sat", "sunday,saturday"] := by
  have first : parseDayList "sat" = .ok { weekdays := [6] } := by decide +kernel
  have last : parseDayList "sunday,saturday" = .ok { weekdays := [0, 6] } := by decide +kernel
  have accepted : NameDays ["sat", "sunday,saturday"] := by
    intro text member
    rcases List.mem_pair.mp member with rfl | rfl
    · exact ⟨_, first, rfl⟩
    · exact ⟨_, last, rfl⟩
  refine (formsAgree_iff true (by simp) accepted).mpr ?_
  intro lastText isLast lastDays isLastDays
  obtain rfl := Option.some.inj isLast
  obtain rfl := Except.ok.inj (last.symm.trans isLastDays)
  right
  intro text member days isDays
  rcases List.mem_pair.mp member with rfl | rfl
  · obtain rfl := Except.ok.inj (first.symm.trans isDays)
    simp
  · obtain rfl := Except.ok.inj (last.symm.trans isDays)
    simp

/-- Monday and Tuesday as a sequence are Tuesday only; the fifth of January 1970 was
a Monday. -/
theorem monday_lost :
    decodeDays (.supporter true) (some (.sequence ["mon", "tue"])) = .ok { weekdays := [2] } ∧
    decodeDays (.supporter true) (some (.scalar (",".intercalate ["mon", "tue"]))) =
      .ok { weekdays := [1, 2] } ∧
      ¬ FormsAgree true ["mon", "tue"] := by
  have listed : decodeDays (.supporter true) (some (.sequence ["mon", "tue"])) =
      .ok { weekdays := [2] } := by decide +kernel
  have joined : decodeDays (.supporter true) (some (.scalar (",".intercalate ["mon", "tue"]))) =
      .ok { weekdays := [1, 2] } := by decide +kernel
  refine ⟨listed, joined, ?_⟩
  rintro ⟨listed', joined', isListed, isJoined, agree⟩
  obtain rfl := Except.ok.inj (listed.symm.trans isListed)
  obtain rfl := Except.ok.inj (joined.symm.trans isJoined)
  exact absurd (agree (fixedZone 0) (4 * day)).1 (by decide +kernel)

/-! ### Blackouts -/

/-- `parseHHMM`. Four bytes that are fewer characters hold no two numbers. -/
def parseHHMM (s : String) : Option Int :=
  let s := replaceAll s ":" ""
  if s.utf8ByteSize ≠ 4 then none
  else
    match s.toList with
    | [a, b, c, d] =>
      match atoi? (String.ofList [a, b]), atoi? (String.ofList [c, d]) with
      | some h, some m => if h < 0 ∨ 23 < h ∨ m < 0 ∨ 59 < m then none else some (h * 60 + m)
      | _, _ => none
    | _ => none

/-- `SupporterBlackoutDaySkip`. -/
def blackoutDaySkip (edition : Edition) (b : Blackout) (loc : Location) (t : Int) : Bool :=
  match edition with
  | .community => false
  | .supporter _ => !b.days.isEmpty && !b.days.matches loc t

def Blackout.contains (b : Blackout) (edition : Edition) (loc : Location) (t : Int) : Bool :=
  if b.beginAt = "" ∨ b.endAt = "" then false
  else
    match parseHHMM b.beginAt, parseHHMM b.endAt with
    | some start, some finish =>
      let now := loc.minuteOfDay t
      if blackoutDaySkip edition b loc t then false
      else if finish < start then start < now || now < finish
      else if finish = start then false
      else start < now && now < finish
    | _, _ => false

/-- `Blocked`. -/
def blocked (edition : Edition) (s : Schedule) (loc : Location) (t : Int) : Bool :=
  (s.blackout.getD []).any fun b => b.contains edition loc t

/-- `SupporterDayAllowed`. -/
def dayAllowed (edition : Edition) (s : Schedule) (loc : Location) (t : Int) : Bool :=
  match edition with
  | .community => true
  | .supporter _ =>
    if !s.days.isEmpty && !s.days.matches loc t then false
    else if !s.excludeDays.isEmpty && s.excludeDays.matches loc t then false
    else true

/-- Minutes on the clock since the epoch. -/
def clockIndex (loc : Location) (t : Int) : Int := loc.localDay t * 1440 + loc.minuteOfDay t

/-- The instants of the blackout are those strictly between its begin on a listed
day and its end on the next day, on the clock. -/
def OneWindow (b : Blackout) (licensed : Bool) (start finish : Int) : Prop :=
  ∀ loc t, b.contains (.supporter licensed) loc t = true ↔
    ∃ date, b.days.names date ∧ date * 1440 + start < clockIndex loc t ∧
      clockIndex loc t < (date + 1) * 1440 + finish

theorem parseHHMM_range {s : String} {m : Int} (read : parseHHMM s = some m) : 0 ≤ m ∧ m < 1440 := by
  unfold parseHHMM at read
  simp only at read
  split at read
  · cases read
  · split at read
    · split at read
      · split at read
        · cases read
        · rename_i inside
          rw [← Option.some.inj read]
          omega
      · cases read
    · cases read

theorem not_empty_text {s : String} {m : Int} (read : parseHHMM s = some m) : s ≠ "" := by
  rintro rfl
  have none : parseHHMM "" = none := by decide
  rw [none] at read
  cases read

theorem decodeDays_valid {edition : Edition} {node : Option TextList}
    (decoded : decodeDays edition node = .ok days) : days.Valid := by
  have nothing : ({} : DayList).Valid := ⟨by simp, by simp⟩
  refine foldlM_ok_keeps (fun _ text after parsed _ => ?_) nothing decoded
  cases edition with
  | community => cases parsed
  | supporter licensed => exact parseDayList_valid parsed

theorem DayList.Valid.exists_names (valid : days.Valid)
    (notEmpty : days.isEmpty = false) : ∃ date, days.names date := by
  rcases DayList.exists_of_not_empty notEmpty with ⟨weekday, member⟩ | ⟨date, member⟩
  · obtain ⟨day, sameWeekday, -⟩ :=
      @exists_date weekday (valid.weekdays weekday member) 1 (by decide) (by decide)
    exact ⟨day, .inl (sameWeekday ▸ member)⟩
  · obtain ⟨low, high⟩ := valid.dom date member
    obtain ⟨day, -, sameDate⟩ := @exists_date 0 (by decide) date low high
    exact ⟨day, .inr (sameDate ▸ member)⟩

/-- What holds of a date and of both neighbours of every date it holds of, holds of
all dates. -/
theorem names_all {first : Int} (named : days.names first)
    (steps : ∀ date, days.names date ↔ days.names (date - 1)) (date : Int) : days.names date := by
  have later : ∀ count : Nat, days.names (first + count) := by
    intro count
    induction count with
    | zero => simpa using named
    | succ count ih =>
      rw [steps]
      have before : first + ((count + 1 : Nat) : Int) - 1 = first + count := by omega
      rwa [before]
  have sooner : ∀ count : Nat, days.names (first - count) := by
    intro count
    induction count with
    | zero => simpa using named
    | succ count ih =>
      have before : first - ((count + 1 : Nat) : Int) = first - count - 1 := by omega
      rw [before, ← steps]
      exact ih
  by_cases after : first ≤ date
  · have isLater := later (date - first).toNat
    have same : first + ((date - first).toNat : Int) = date := by omega
    rwa [same] at isLater
  · have isSooner := sooner (first - date).toNat
    have same : first - ((first - date).toNat : Int) = date := by omega
    rwa [same] at isSooner

section Window

variable {b : Blackout} {licensed : Bool} {start finish : Int}
  (isStart : parseHHMM b.beginAt = some start) (isFinish : parseHHMM b.endAt = some finish)
  (overMidnight : finish < start) (listed : b.days.isEmpty = false)

include isStart isFinish overMidnight listed

/-- What `Contains` checks of a window over midnight. -/
theorem contains_iff (loc : Location) (t : Int) : b.contains (.supporter licensed) loc t = true ↔
      b.days.names (loc.localDay t) ∧
        (start < loc.minuteOfDay t ∨ loc.minuteOfDay t < finish) := by
  unfold Blackout.contains blackoutDaySkip
  rw [if_neg (not_or.mpr ⟨not_empty_text isStart, not_empty_text isFinish⟩), isStart, isFinish]
  simp only [listed, if_pos overMidnight, ← DayList.matches_iff listed loc t]
  cases b.days.matches loc t with
  | true => simp
  | false => simp

omit listed in
/-- The window of an instant: that of its own day, or that of the day before. -/
theorem inside_iff (loc : Location) (t : Int) :
    (∃ date, b.days.names date ∧ date * 1440 + start < clockIndex loc t ∧
      clockIndex loc t < (date + 1) * 1440 + finish) ↔
      (b.days.names (loc.localDay t) ∧ start < loc.minuteOfDay t) ∨
        (b.days.names (loc.localDay t - 1) ∧ loc.minuteOfDay t < finish) := by
  obtain ⟨startLow, startHigh⟩ := parseHHMM_range isStart
  obtain ⟨finishLow, finishHigh⟩ := parseHHMM_range isFinish
  have inDay : 0 ≤ loc.minuteOfDay t ∧ loc.minuteOfDay t < 1440 := by
    unfold Location.minuteOfDay
    omega
  unfold clockIndex
  constructor
  · rintro ⟨date, named, after, before⟩
    by_cases today : date = loc.localDay t
    · rw [today] at named
      exact .inl ⟨named, by omega⟩
    · have yesterday : date = loc.localDay t - 1 := by omega
      rw [yesterday] at named
      exact .inr ⟨named, by omega⟩
  · rintro (⟨named, after⟩ | ⟨named, before⟩)
    · exact ⟨loc.localDay t, named, by omega, by omega⟩
    · exact ⟨loc.localDay t - 1, named, by omega, by omega⟩

end Window

/-- A window over midnight is one window exactly if it ends at midnight or all days
are listed. -/
theorem oneWindow_iff {licensed : Bool} {node : BlackoutNode} {b : Blackout} {start finish : Int}
    (decoded : decodeBlackout (.supporter licensed) node = .ok b)
    (isStart : parseHHMM b.beginAt = some start) (isFinish : parseHHMM b.endAt = some finish)
    (overMidnight : finish < start) (listed : b.days.isEmpty = false) :
    OneWindow b licensed start finish ↔ finish = 0 ∨ b.days.Full := by
  obtain ⟨finishLow, -⟩ := parseHHMM_range isFinish
  have valid : b.days.Valid := by
    obtain ⟨days, isDays, built⟩ := bind_eq_ok.mp decoded
    rw [← Except.ok.inj built]
    exact decodeDays_valid isDays
  unfold OneWindow
  simp only [contains_iff isStart isFinish overMidnight listed,
    inside_iff isStart isFinish overMidnight]
  constructor
  · intro same
    by_cases atMidnight : finish = 0
    · exact .inl atMidnight
    · right
      obtain ⟨first, named⟩ := valid.exists_names listed
      refine DayList.full_iff.mpr (names_all named fun date => ?_)
      have isMidnight : (fixedZone 0).minuteOfDay (date * day) = 0 := by
        show (date * day / second + 0) % 86400 / 60 = 0
        unfold day hour minute second
        omega
      have startLow := (parseHHMM_range isStart).1
      have both := same (fixedZone 0) (date * day)
      rw [localDay_utc, isMidnight] at both
      constructor
      · intro today
        rcases both.mp ⟨today, .inr (by omega)⟩ with ⟨-, later⟩ | ⟨yesterday, -⟩
        · omega
        · exact yesterday
      · intro yesterday
        exact (both.mpr (.inr ⟨yesterday, by omega⟩)).1
  · intro condition loc t
    have inDay : 0 ≤ loc.minuteOfDay t := by
      unfold Location.minuteOfDay
      omega
    rcases condition with rfl | full
    · constructor
      · rintro ⟨named, later | sooner⟩
        · exact .inl ⟨named, later⟩
        · omega
      · rintro (⟨named, later⟩ | ⟨-, sooner⟩)
        · exact ⟨named, .inl later⟩
        · omega
    · have all := DayList.full_iff.mp full
      constructor
      · rintro ⟨named, later | sooner⟩
        · exact .inl ⟨named, later⟩
        · exact .inr ⟨all _, sooner⟩
      · rintro (⟨named, later⟩ | ⟨-, sooner⟩)
        · exact ⟨named, .inl later⟩
        · exact ⟨all _, .inr sooner⟩

theorem oneWindow_iff_midnight :
    OneWindow { beginAt := "22:00", endAt := "0000", days := { weekdays := [5] } } true 1320 0 := by
  have decoded : decodeBlackout (.supporter true)
      { beginAt := "22:00", endAt := "0000", days := some (.scalar "fri") } =
        .ok { beginAt := "22:00", endAt := "0000", days := { weekdays := [5] } } := by decide +kernel
  exact (oneWindow_iff decoded (by decide +kernel) (by decide +kernel) (by decide) rfl).mpr (.inl rfl)

/-- From Friday at ten in the evening to six in the morning: Saturday at one o'clock
(the third of January 1970) is left out. -/
theorem saturday_morning_left_out :
    decodeBlackout (.supporter true)
      { beginAt := "22:00", endAt := "06:00", days := some (.scalar "fri") } =
        .ok { beginAt := "22:00", endAt := "06:00", days := { weekdays := [5] } } ∧
    parseHHMM "22:00" = some 1320 ∧ parseHHMM "06:00" = some 360 ∧
    ({ beginAt := "22:00", endAt := "06:00", days := { weekdays := [5] } } : Blackout).contains
      (.supporter true) (fixedZone 0) (2 * day + hour) = false ∧
    ¬ OneWindow { beginAt := "22:00", endAt := "06:00", days := { weekdays := [5] } } true 1320 360 := by
  have outside : ({ beginAt := "22:00", endAt := "06:00", days := { weekdays := [5] } } :
      Blackout).contains (.supporter true) (fixedZone 0) (2 * day + hour) = false := by decide +kernel
  refine ⟨by decide +kernel, by decide +kernel, by decide +kernel, outside, fun window => ?_⟩
  have inside := (window (fixedZone 0) (2 * day + hour)).mpr
    ⟨1, by unfold DayList.names; decide, by decide, by decide⟩
  rw [outside] at inside
  cases inside

end DbBackup.Config
