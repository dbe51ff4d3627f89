import DbBackup.Storage.Pattern
import DbBackup.Storage.Sidecar

/-!
Owns the comparison of the two readers of backup names: the pattern matching of
`ParseBackupFilename` and the cutting of `ParseTimestamp` and
`StrategyFromFilename`.

Contract: on every path the full parser accepts, the two cutting readers give
its timestamp and its strategy exactly if the path ends in a stamp without a
collision suffix whose encryption is `.gpg` or none (`PlainName`).

Does not own: what the patterns accept (`Storage.Pattern`).
-/

set_option linter.all false

namespace DbBackup.Storage

open Lib.Backtrack Lib.GoString Lib.Time

/-- The two cutting readers agree with what the full parser reads, if it reads
anything. -/
def ParsersAgree (path : String) : Prop :=
  ∀ info, parseBackupFilename path = .ok info →
    parseTimestamp path = some info.timestamp ∧ strategyFromFilename path = info.strategy

/-- A stamp whose text the cutting readers take apart: they know neither a
collision suffix nor the endings of `age` and `openssl`. -/
def Stamp.Cuttable (stamp : Stamp) : Prop :=
  stamp.suffix = none ∧ (stamp.enc = none ∨ stamp.enc = some "gpg")

def PlainName (path : String) : Prop :=
  ∃ (start : List Char) (stamp : Stamp), stamp.Valid ∧ stamp.Cuttable ∧
    path.toList = start ++ '-' :: stamp.render

/-! ### Cutting endings off -/

def knownEndings : List String :=
  [".gpg", ".zst", ".gz", ".bz2", ".xz"] ++ [".sql", ".mongo", ".redis", ".influx", ".couch"]

def bare (filename : String) : String := knownEndings.foldl trimSuffix filename

theorem stripFormatExt_stripPackaging (filename : String) :
    stripFormatExt (stripPackaging filename) = bare filename :=
  (List.foldl_append ..).symm

theorem foldl_trimSuffix_isPrefix (endings : List String) (text : String) :
    (endings.foldl trimSuffix text).toList <+: text.toList := by
  induction endings generalizing text with
  | nil => exact List.prefix_rfl
  | cons ending endings ih =>
    exact (ih _).trans (trimSuffix_isPrefix text ending)

theorem foldl_trimSuffix_append_left {endings : List String} {start : String} (rest : String)
    (keeps : ∀ ending ∈ endings, ∀ rest,
      trimSuffix (start ++ rest) ending = start ++ trimSuffix rest ending) :
    endings.foldl trimSuffix (start ++ rest) = start ++ endings.foldl trimSuffix rest := by
  induction endings generalizing rest with
  | nil => rfl
  | cons ending endings ih =>
    rw [List.foldl_cons, List.foldl_cons, keeps ending (by simp)]
    exact ih _ fun other member => keeps other (by simp [member])

variable {text : String}

theorem foldl_trimSuffix_eq_self {endings : List String}
    (kept : ∀ ending ∈ endings, trimSuffix text ending = text) :
    endings.foldl trimSuffix text = text := by
  induction endings with
  | nil => rfl
  | cons ending endings ih =>
    rw [List.foldl_cons, kept ending (by simp)]
    exact ih fun other member => kept other (by simp [member])

theorem knownEndings_shape :
    ∀ ending ∈ knownEndings, '-' ∉ ending.toList ∧ ending.toList.head? = some '.' := by
  decide

/-- No known ending reaches over a dash. -/
theorem bare_append_dash (start last : String) :
    bare (start ++ "-" ++ last) = start ++ "-" ++ bare last := by
  apply foldl_trimSuffix_append_left
  intro ending known rest
  apply trimSuffix_append_left
  intro ends
  rcases hasSuffix_append_cases ends with inRest | ⟨word, notEmpty, inStart, shape⟩
  · exact inRest
  · have endsInDash : ['-'] <:+ (start ++ "-").toList := ⟨start.toList, by simp⟩
    have dashInWord : '-' ∈ word := by
      rcases List.suffix_or_suffix_of_suffix endsInDash inStart with inside | outside
      · exact inside.subset (by simp)
      · rcases List.suffix_cons_iff.mp outside with whole | nothing
        · simp [whole]
        · exact absurd (List.suffix_nil.mp nothing) notEmpty
    have noDash := (knownEndings_shape ending known).1
    rw [shape] at noDash
    exact absurd (List.mem_append_left _ dashInWord) noDash

/-- A word without dots is never cut. -/
theorem bare_append_word {word : String} (noDot : '.' ∉ word.toList) (rest : String) :
    bare (word ++ rest) = word ++ bare rest := by
  apply foldl_trimSuffix_append_left
  intro ending known rest
  apply trimSuffix_append_left
  intro ends
  rcases hasSuffix_append_cases ends with inRest | ⟨part, notEmpty, inWord, shape⟩
  · exact inRest
  · have dotFirst := (knownEndings_shape ending known).2
    cases part with
    | nil => exact absurd rfl notEmpty
    | cons first tail =>
      rw [shape, List.cons_append, List.head?_cons, Option.some.injEq] at dotFirst
      rw [← dotFirst] at noDot
      exact absurd (inWord.subset (by simp)) noDot

theorem bare_of_slash (last : text.toList.getLast? = some '/') : bare text = text := by
  have noEnding : ∀ ending ∈ knownEndings, ending.toList.getLast? ≠ some '/' ∧
      ending.toList ≠ [] := by decide
  apply foldl_trimSuffix_eq_self
  intro ending known
  apply trimSuffix_of_not_hasSuffix
  by_contra ends
  rw [Bool.not_eq_false] at ends
  obtain ⟨start, rfl⟩ := (hasSuffix_iff _ _).mp ends
  rw [String.toList_append, List.getLast?_append_of_ne_nil _ (noEnding ending known).2] at last
  exact (noEnding ending known).1 last

theorem bare_toList (text : String) :
    (bare text).toList = (knownEndings.map String.toList).foldl cutEnding text.toList :=
  foldl_trimSuffix_toList knownEndings text

variable {stamp : Stamp}

/-- An ending is cut off whole, or not at all. -/
theorem bare_ending (valid : stamp.Valid) : bare (String.ofList stamp.ending) =
      if stamp.enc = none ∨ stamp.enc = some "gpg" then "" else String.ofList stamp.ending := by
  -- On characters the cases are few and small enough to be run.
  have all : ∀ format ∈ ["sql", "mongo", "redis", "influx", "couch"],
      ∀ compress ∈ none :: ["zst", "gz", "bz2", "xz"].map some,
      ∀ enc ∈ none :: ["age", "enc", "gpg"].map some,
        (knownEndings.map String.toList).foldl cutEnding ('.' :: (format.toList ++
          optionalPart '.' compress ++ optionalPart '.' enc)) =
          if enc = none ∨ enc = some "gpg" then []
          else '.' :: (format.toList ++ optionalPart '.' compress ++ optionalPart '.' enc) := by
    decide +kernel
  have cut := all _ valid.format _ (mem_options valid.compress) _ (mem_options valid.enc)
  apply String.toList_injective
  rw [bare_toList, String.toList_ofList]
  refine cut.trans ?_
  split
  · rfl
  · exact String.toList_ofList.symm

/-! ### The parts between dashes -/

variable {path : String}

theorem dashParts_eq {start last : List Char}
    (shape : path.toList = start ++ '-' :: last) (noDash : '-' ∉ last) :
    dashParts path =
      (start.splitOn '-').map String.ofList ++ [bare (String.ofList last)] := by
  have asString : path = String.ofList start ++ "-" ++ String.ofList last := by
    apply String.toList_injective
    simp [shape]
  have bareNoDash : '-' ∉ (bare (String.ofList last)).toList := by
    intro member
    have inLast := (foldl_trimSuffix_isPrefix knownEndings (String.ofList last)).subset member
    simp [noDash] at inLast
  unfold dashParts
  rw [stripFormatExt_stripPackaging, asString, bare_append_dash]
  have chars : (String.ofList start ++ "-" ++ bare (String.ofList last)).toList =
      start ++ '-' :: (bare (String.ofList last)).toList := by
    simp
  rw [chars, List.splitOn_append_cons_self, List.splitOn_eq_singleton bareNoDash, List.map_append]
  simp

theorem reverse_splitOn_cons {start last : List Char} (noDash : '-' ∉ last) :
    (((start ++ '-' :: last).splitOn '-').map String.ofList).reverse =
      String.ofList last :: ((start.splitOn '-').map String.ofList).reverse := by
  rw [List.splitOn_append_cons_self, List.splitOn_eq_singleton noDash]
  simp

/-! ### Texts that are no time -/

theorem takeDigits_digits {word : List Char} (digits : ∀ c ∈ word, c.isDigit = true)
    (acc : Nat) (rest : List Char) :
    ∃ value, takeDigits word.length acc (word ++ rest) = some (value, rest) := by
  induction word generalizing acc with
  | nil => exact ⟨acc, rfl⟩
  | cons head tail ih =>
    have isDigit : digitValue head = some (head.toNat - '0'.toNat) := by
      have := digits head (by simp)
      unfold digitValue
      rw [if_pos]
      simpa [Char.isDigit, Char.le_def] using this
    obtain ⟨value, read⟩ := ih (fun c member => digits c (by simp [member]))
      (10 * acc + (head.toNat - '0'.toNat))
    exact ⟨value, by simpa [takeDigits, isDigit] using read⟩

theorem takeDigits_part {word : List Char} (digits : ∀ c ∈ word, c.isDigit = true)
    {count : Nat} (long : count ≤ word.length) (rest : List Char) :
    ∃ value, takeDigits count 0 (word ++ rest) = some (value, word.drop count ++ rest) := by
  obtain ⟨value, read⟩ := @takeDigits_digits (word.take count)
    (fun c member => digits c (List.mem_of_mem_take member)) 0 (word.drop count ++ rest)
  rw [← List.append_assoc, List.take_append_drop, List.length_take_of_le long] at read
  exact ⟨value, read⟩

theorem parseCompact_of_dash {text : String} {time rest : List Char}
    (shape : text.toList = time ++ '-' :: rest) (length : time.length = 6)
    (digits : ∀ c ∈ time, c.isDigit = true) : parseCompact text = none := by
  have later : ∀ count, ∀ c ∈ time.drop count, c.isDigit = true :=
    fun count c member => digits c (List.mem_of_mem_drop member)
  obtain ⟨year, yearRead⟩ := takeDigits_part digits (by omega : 4 ≤ time.length) ('-' :: rest)
  obtain ⟨month, monthRead⟩ := takeDigits_part (later 4)
    (by rw [List.length_drop]; omega : 2 ≤ (time.drop 4).length) ('-' :: rest)
  have nothingLeft : (time.drop 4).drop 2 = [] :=
    List.drop_eq_nil_of_le (by rw [List.length_drop]; omega)
  rw [nothingLeft, List.nil_append] at monthRead
  have noDay : takeDigits 2 0 ('-' :: rest) = none := rfl
  unfold parseCompact
  simp only [shape, yearRead, monthRead, noDay, bind, Option.bind]

theorem parseCompact_of_rest {date time rest : List Char}
    (shape : text.toList = date ++ '-' :: (time ++ rest)) (dateLength : date.length = 8)
    (dateDigits : ∀ c ∈ date, c.isDigit = true) (timeLength : time.length = 6)
    (timeDigits : ∀ c ∈ time, c.isDigit = true) (unread : (takeFraction rest).2 ≠ []) :
    parseCompact text = none := by
  have laterDate : ∀ count, ∀ c ∈ date.drop count, c.isDigit = true :=
    fun count c member => dateDigits c (List.mem_of_mem_drop member)
  have laterTime : ∀ count, ∀ c ∈ time.drop count, c.isDigit = true :=
    fun count c member => timeDigits c (List.mem_of_mem_drop member)
  obtain ⟨year, yearRead⟩ := takeDigits_part dateDigits (by omega : 4 ≤ date.length)
    ('-' :: (time ++ rest))
  obtain ⟨month, monthRead⟩ := takeDigits_part (laterDate 4)
    (by rw [List.length_drop]; omega : 2 ≤ (date.drop 4).length) ('-' :: (time ++ rest))
  obtain ⟨day, dayRead⟩ := takeDigits_part (laterDate 6)
    (by rw [List.length_drop]; omega : 2 ≤ (date.drop 6).length) ('-' :: (time ++ rest))
  obtain ⟨hours, hoursRead⟩ := takeDigits_part timeDigits (by omega : 2 ≤ time.length) rest
  obtain ⟨minutes, minutesRead⟩ := takeDigits_part (laterTime 2)
    (by rw [List.length_drop]; omega : 2 ≤ (time.drop 2).length) rest
  obtain ⟨seconds, secondsRead⟩ := takeDigits_part (laterTime 4)
    (by rw [List.length_drop]; omega : 2 ≤ (time.drop 4).length) rest
  rw [List.drop_drop] at monthRead dayRead minutesRead secondsRead
  have dateDone : date.drop (6 + 2) = [] := List.drop_eq_nil_of_le (by omega)
  have timeDone : time.drop (4 + 2) = [] := List.drop_eq_nil_of_le (by omega)
  rw [dateDone, List.nil_append] at dayRead
  rw [timeDone, List.nil_append] at secondsRead
  have stop : takeChar '-' ('-' :: (time ++ rest)) = some (time ++ rest) := rfl
  unfold parseCompact
  simp only [shape, yearRead, monthRead, dayRead, stop, takeHour, hoursRead, minutesRead,
    secondsRead, bind, Option.bind, if_neg unread]

/-! ### The cutting readers on a stamp -/

theorem takeFraction_ending (valid : stamp.Valid) (rest : List Char) :
    (takeFraction (stamp.ending ++ rest)).2 = stamp.ending ++ rest := by
  have letterFirst : ∀ word ∈ ["sql", "mongo", "redis", "influx", "couch"],
      word.toList.head?.map digitValue = some none := by decide
  obtain ⟨first, isFirst, noDigit⟩ := Option.map_eq_some_iff.mp (letterFirst _ valid.format)
  obtain ⟨tail, format⟩ := List.head?_eq_some_iff.mp isFirst
  simp [Stamp.ending, format, takeFraction, noDigit]

theorem noDot_of_digits {word : List Char} (digits : ∀ c ∈ word, c.isDigit = true) : '.' ∉ word :=
  not_mem_of_digits (by decide) digits

theorem bare_time {time : String} (digits : ∀ c ∈ time.toList, c.isDigit = true)
    (rest : List Char) :
    bare (String.ofList (time.toList ++ rest)) = time ++ bare (String.ofList rest) := by
  rw [String.ofList_append, String.ofList_toList]
  exact bare_append_word (noDot_of_digits digits) _

theorem reverse_dashParts_unsuffixed {path : String} {start rest : List Char} {stamp : Stamp}
    (valid : stamp.Valid) (unsuffixed : stamp.suffix = none) (restNoDash : '-' ∉ rest)
    (shape : path.toList = start ++ '-' :: stamp.render ++ rest) :
    (dashParts path).reverse =
      (stamp.time ++ bare (String.ofList (stamp.ending ++ rest))) :: stamp.date :: stamp.strat ::
        ((start.splitOn '-').map String.ofList).reverse := by
  have isDash : '-'.isDigit = false := by decide
  have timeNoDash := not_mem_of_digits isDash valid.timeDigits
  have dateNoDash := not_mem_of_digits isDash valid.dateDigits
  have lastNoDash : '-' ∉ stamp.time.toList ++ (stamp.ending ++ rest) := by
    simp [timeNoDash, valid.ending_noDash, restNoDash]
  have split : path.toList = ((start ++ '-' :: stamp.strat.toList) ++ '-' :: stamp.date.toList) ++
      '-' :: (stamp.time.toList ++ (stamp.ending ++ rest)) := by
    rw [shape, stamp.render_eq start, unsuffixed]
    simp
  rw [dashParts_eq split lastNoDash, List.reverse_append, reverse_splitOn_cons dateNoDash,
    reverse_splitOn_cons valid.strat_noDash, bare_time valid.timeDigits]
  simp

theorem cuttingReaders_of_cuttable {start : List Char}
    (valid : stamp.Valid) (cuttable : stamp.Cuttable)
    (shape : path.toList = start ++ '-' :: stamp.render) :
    parseTimestamp path = parseCompact (stamp.date ++ "-" ++ stamp.time) ∧
      strategyFromFilename path = strategyOfToken stamp.strat := by
  have parts := @reverse_dashParts_unsuffixed path start [] stamp valid cuttable.1 (by simp)
    (by simpa using shape)
  rw [List.append_nil, bare_ending valid, if_pos cuttable.2, String.append_empty] at parts
  have startParts : ((start.splitOn '-').map String.ofList).reverse ≠ [] := by
    simp [List.splitOn_ne_nil]
  obtain ⟨first, others, isStart⟩ := List.exists_cons_of_ne_nil startParts
  rw [isStart] at parts
  unfold parseTimestamp strategyFromFilename
  rw [parts]
  exact ⟨rfl, rfl⟩

theorem parseTimestamp_of_suffixed {start rest : List Char}
    {n : String} (valid : stamp.Valid) (suffixed : stamp.suffix = some n) (restNoDash : '-' ∉ rest)
    (shape : path.toList = start ++ '-' :: stamp.render ++ rest) : parseTimestamp path = none := by
  have isDash : '-'.isDigit = false := by decide
  have lastNoDash : '-' ∉ n.toList ++ (stamp.ending ++ rest) := by
    simp [not_mem_of_digits isDash (valid.suffix n suffixed).2, valid.ending_noDash, restNoDash]
  have split : path.toList = (((start ++ '-' :: stamp.strat.toList) ++ '-' :: stamp.date.toList) ++
      '-' :: stamp.time.toList) ++ '-' :: (n.toList ++ (stamp.ending ++ rest)) := by
    rw [shape, stamp.render_eq start, suffixed]
    simp
  unfold parseTimestamp
  rw [dashParts_eq split lastNoDash, List.reverse_append,
    reverse_splitOn_cons (not_mem_of_digits isDash valid.timeDigits), String.ofList_toList]
  refine @parseCompact_of_dash _ stamp.time.toList
    (bare (String.ofList (n.toList ++ (stamp.ending ++ rest)))).toList ?_ valid.timeLength
    valid.timeDigits
  simp

theorem parseTimestamp_of_uncut {start rest : List Char}
    (valid : stamp.Valid) (unsuffixed : stamp.suffix = none) (restNoDash : '-' ∉ rest)
    (uncut : bare (String.ofList (stamp.ending ++ rest)) = String.ofList (stamp.ending ++ rest))
    (shape : path.toList = start ++ '-' :: stamp.render ++ rest) : parseTimestamp path = none := by
  have unread : (takeFraction (stamp.ending ++ rest)).2 ≠ [] := by
    rw [takeFraction_ending valid]
    simp [Stamp.ending]
  unfold parseTimestamp
  rw [reverse_dashParts_unsuffixed valid unsuffixed restNoDash shape, uncut]
  refine parseCompact_of_rest ?_ valid.dateLength valid.dateDigits valid.timeLength
    valid.timeDigits unread
  simp

/-- The time is not found in a stamp that is followed by slashes or that the
readers cannot take apart. -/
theorem parseTimestamp_eq_none {start slashes : List Char}
    (valid : stamp.Valid) (allSlashes : ∀ c ∈ slashes, c = '/')
    (shape : path.toList = start ++ '-' :: stamp.render ++ slashes)
    (other : ¬(stamp.Cuttable ∧ slashes = [])) : parseTimestamp path = none := by
  have noDash : '-' ∉ slashes := by
    intro member
    exact absurd (allSlashes '-' member) (by decide)
  cases suffix : stamp.suffix with
  | some n => exact parseTimestamp_of_suffixed valid suffix noDash shape
  | none =>
    apply parseTimestamp_of_uncut valid suffix noDash ?_ shape
    by_cases clean : slashes = []
    · have unknown : ¬(stamp.enc = none ∨ stamp.enc = some "gpg") := by
        intro known
        exact other ⟨⟨suffix, known⟩, clean⟩
      rw [clean, List.append_nil, bare_ending valid, if_neg unknown]
    · apply bare_of_slash
      rw [String.toList_ofList, List.getLast?_append_of_ne_nil _ clean,
        List.getLast?_eq_some_getLast clean, allSlashes _ (List.getLast_mem clean)]

/-! ### The full parser on a path -/

theorem Reading.exists_stamp {base : String} {tokens : Tokens} (reading : Reading base tokens) :
    ∃ (start : List Char) (stamp : Stamp), stamp.Valid ∧
      base.toList = start ++ '-' :: stamp.render ∧ tokens.stratTok = stamp.strat ∧
      tokens.tsTok = stamp.date ++ "-" ++ stamp.time := by
  cases reading with
  | withHost t d h stamp valid shape =>
    refine ⟨t.toList ++ '-' :: (d.toList ++ '-' :: h.toList), stamp, valid, ?_, rfl, rfl⟩
    simp [shape]
  | noHost t d stamp valid shape =>
    refine ⟨t.toList ++ '-' :: d.toList, stamp, valid, ?_, rfl, rfl⟩
    simp [shape]
  | typeOnly t stamp valid shape => exact ⟨t.toList, stamp, valid, shape, rfl, rfl⟩

theorem named_of_filepathBase {c : Char} (member : c ∈ (filepathBase path).toList)
    (notDot : c ≠ '.') (notSlash : c ≠ '/') : ∃ c ∈ path.toList, c ≠ '/' := by
  by_contra unnamed
  rw [not_exists] at unnamed
  have allSlashes : ∀ c ∈ path.toList, c = '/' := by
    intro c inPath
    by_contra other
    exact unnamed c ⟨inPath, other⟩
  have trimmed : path.toList.reverse.dropWhile (· = '/') = [] := by
    rw [List.dropWhile_eq_nil_iff]
    intro c inPath
    simpa using allSlashes c (List.mem_reverse.mp inPath)
  unfold filepathBase at member
  by_cases empty : path = ""
  · rw [if_pos empty] at member
    exact notDot (by simpa using member)
  · rw [if_neg empty, trimmed] at member
    exact notSlash (by simpa using member)

/-- A path that is read is a stamp after some start, and slashes. -/
theorem exists_stamp_of_filenameTokens {tokens : Tokens}
    (found : filenameTokens (filepathBase path) = some tokens) :
    ∃ (start slashes : List Char) (stamp : Stamp), stamp.Valid ∧
      path.toList = start ++ '-' :: stamp.render ++ slashes ∧ (∀ c ∈ slashes, c = '/') ∧
      tokens.stratTok = stamp.strat ∧ tokens.tsTok = stamp.date ++ "-" ++ stamp.time := by
  obtain ⟨start, stamp, valid, shape, strat, time⟩ := (reading_of_filenameTokens found).exists_stamp
  have hasDash : '-' ∈ (filepathBase path).toList := by simp [shape]
  obtain ⟨folder, slashes, pathShape, -, -, -, allSlashes⟩ :=
    filepathBase_parts (named_of_filepathBase hasDash (by decide) (by decide))
  refine ⟨folder ++ start, slashes, stamp, valid, ?_, allSlashes, strat, time⟩
  rw [pathShape, shape]
  simp

theorem Stamp.Valid.render_noSlash (valid : stamp.Valid) : '/' ∉ stamp.render := by
  have slash : '/'.isDigit = false := by decide
  have stratNoSlash : ∀ word ∈ ["full", "incr", "diff"], '/' ∉ word.toList := by decide
  have suffixNoSlash : '/' ∉ optionalPart '-' stamp.suffix := by
    cases suffix : stamp.suffix with
    | none => simp [optionalPart]
    | some n => simp [optionalPart, not_mem_of_digits slash (valid.suffix n suffix).2]
  have endingNoSlash : '/' ∉ stamp.ending := valid.not_mem_ending (by decide) (by decide)
  simp [Stamp.render, stratNoSlash _ valid.strat, not_mem_of_digits slash valid.dateDigits,
    not_mem_of_digits slash valid.timeDigits, suffixNoSlash, endingNoSlash]

/-- A path that ends in a cuttable stamp ends in no other stamp. -/
theorem cuttable_of_plainName {start slashes : List Char}
    (valid : stamp.Valid) (allSlashes : ∀ c ∈ slashes, c = '/')
    (shape : path.toList = start ++ '-' :: stamp.render ++ slashes) (plain : PlainName path) :
    stamp.Cuttable ∧ slashes = [] := by
  obtain ⟨otherStart, other, otherValid, cuttable, otherShape⟩ := plain
  have noSlashes : slashes = [] := by
    by_contra some
    have renderNotEmpty : '-' :: other.render ≠ [] := by simp
    have lasts := congrArg List.getLast? (shape.symm.trans otherShape)
    rw [List.getLast?_append_of_ne_nil _ some, List.getLast?_append_of_ne_nil _ renderNotEmpty,
      List.getLast?_eq_some_getLast some, allSlashes _ (List.getLast_mem some)] at lasts
    have inRender := List.mem_of_getLast? lasts.symm
    simp [otherValid.render_noSlash] at inRender
  have isDash : '-'.isDigit = false := by decide
  have lastNoDash : '-' ∉ other.time.toList ++ other.ending := by
    simp [not_mem_of_digits isDash otherValid.timeDigits, otherValid.ending_noDash]
  have same : start ++ '-' :: stamp.render =
      ((otherStart ++ '-' :: other.strat.toList) ++ '-' :: other.date.toList) ++
        '-' :: (other.time.toList ++ other.ending) := by
    have whole := shape.symm.trans otherShape
    rw [noSlashes, List.append_nil, other.render_eq otherStart, cuttable.1] at whole
    exact whole
  obtain ⟨unsuffixed, -, lastSame, -⟩ := Stamp.tail_unique valid
    (by rw [otherValid.dateLength]) (not_mem_of_digits isDash otherValid.dateDigits) lastNoDash same
  have sameLength : stamp.time.toList.length = other.time.toList.length := by
    rw [valid.timeLength, otherValid.timeLength]
  have sameEnding := (List.append_inj lastSame sameLength).2
  have sameEnc := (Stamp.ending_injective valid otherValid sameEnding).2.2
  exact ⟨⟨unsuffixed, by rw [sameEnc]; exact cuttable.2⟩, noSlashes⟩

/-! ### Agreement -/

theorem parsersAgree_iff (path : String) :
    ParsersAgree path ↔ (isBackupFile path = true → PlainName path) := by
  unfold isBackupFile
  cases read : parseBackupFilename path with
  | error err =>
    simp only [ParsersAgree, read, reduceCtorEq, false_implies, implies_true, Except.isOk,
      Except.toBool, Bool.false_eq_true]
  | ok info =>
    obtain ⟨tokens, timestamp, found, parsed, isInfo⟩ := parseBackupFilename_eq_ok_iff.mp read
    obtain ⟨start, slashes, stamp, valid, shape, allSlashes, strat, time⟩ :=
      exists_stamp_of_filenameTokens found
    have agreement : ParsersAgree path ↔ parseTimestamp path = some timestamp ∧
        strategyFromFilename path = strategyOfToken stamp.strat := by
      unfold ParsersAgree
      simp only [read, Except.ok.injEq, forall_eq', isInfo, strat]
    rw [agreement]
    constructor
    · rintro ⟨sameTime, -⟩ -
      by_cases whole : stamp.Cuttable ∧ slashes = []
      · refine ⟨start, stamp, valid, whole.1, ?_⟩
        rw [shape, whole.2, List.append_nil]
      · rw [parseTimestamp_eq_none valid allSlashes shape whole] at sameTime
        exact absurd sameTime (by simp)
    · intro plain
      obtain ⟨cuttable, noSlashes⟩ := cuttable_of_plainName valid allSlashes shape (plain rfl)
      rw [noSlashes, List.append_nil] at shape
      have readers := cuttingReaders_of_cuttable valid cuttable shape
      rw [← time, parsed] at readers
      exact readers

/-- Retention sees no date in a backup encrypted with age. -/
theorem age_name_undated :
    ¬ ParsersAgree "mysql-app-db1-incr-20240101-120000.sql.zst.age" := by
  intro agree
  have read : (parseBackupFilename "mysql-app-db1-incr-20240101-120000.sql.zst.age").isOk = true := by
    decide +kernel
  have parts : (dashParts "mysql-app-db1-incr-20240101-120000.sql.zst.age").reverse =
      ["120000.sql.zst.age", "20240101", "incr", "db1", "app", "mysql"] := by
    rw [dashParts_chars, String.toList_ofList]
    decide +kernel
  have undated : parseTimestamp "mysql-app-db1-incr-20240101-120000.sql.zst.age" = none :=
    (parseTimestamp_of_parts parts).trans (by decide +kernel)
  cases parsed : parseBackupFilename "mysql-app-db1-incr-20240101-120000.sql.zst.age" with
  | error err =>
    rw [parsed] at read
    exact absurd read (by simp [Except.isOk, Except.toBool])
  | ok info =>
    have found := (agree info parsed).1
    rw [undated] at found
    exact absurd found (by simp)

end DbBackup.Storage
