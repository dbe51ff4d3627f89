import DbBackup.Lib.Calendar
import DbBackup.Runner.Chain
import DbBackup.Storage.Pattern

/-!
Owns the round trip of default backup names: what `ParseBackupFilename` reads
from the name `Run` builds.

Contract: the tokens come back exactly if none of them holds a separator of the
name and an empty token stands only where nothing follows it (`Readable`).
-/

set_option linter.all false

namespace DbBackup.Runner.Chain

open Lib.Backtrack Lib.Delimited Lib.GoString Lib.Time Pipeline Storage

def Job.dbTok (job : Job) : String := (defaultFilenameTokens job.id).1

def Job.hostTok (job : Job) : String := (defaultFilenameTokens job.id).2

/-- Parsing the name gives back what it was built from. Names hold the time of
the wall clock, so the timestamp is compared as that; the compression and the
encryption are compared as the types their names stand for. -/
def ReadsBack (job : Job) (strat : Strategy) (now : Instant) : Prop :=
  ∃ info, parseBackupFilename (defaultName job strat now) = .ok info ∧
    info.type = job.type ∧ info.dbName = job.dbTok ∧ info.host = job.hostTok ∧
    info.strategy = strat ∧ info.timestamp = { nanos := now.localSeconds * second } ∧
    Compression.parse info.compress = job.compression ∧
    Encryption.parse info.encryption = job.encryption

/-- A token without the characters that separate tokens, paths and lines. -/
def Plain (token : String) : Prop :=
  '-' ∉ token.toList ∧ '/' ∉ token.toList ∧ '\n' ∉ token.toList

structure Readable (job : Job) (now : Instant) : Prop where
  typeSet : job.type ≠ ""
  typePlain : Plain job.type
  dbPlain : Plain job.dbTok
  hostPlain : Plain job.hostTok
  hostAfterDb : job.dbTok = "" → job.hostTok = ""
  yearFits : 0 ≤ now.year ∧ now.year ≤ 9999

/-! ### The stamp of a name -/

def compressWord : Compression → Option String
  | .none => none
  | .gzip => some "gz"
  | .bzip2 => some "bz2"
  | .xzip => some "xz"
  | .zstd => some "zst"

def encWord : Encryption → Option String
  | .none => none
  | .age => some "age"
  | .openPGP => some "gpg"
  | .openSSL => some "enc"

/-- The stamp in a default name. -/
def nameStamp (job : Job) (strat : Strategy) (now : Instant) : Stamp where
  strat := strategyToken strat
  date := String.ofList (dateDigits now)
  time := String.ofList (clockDigits now)
  suffix := none
  format := trimPrefix (formatExtension job.type) "."
  compress := compressWord job.compression
  enc := encWord job.encryption

theorem dateDigits_isDigit (t : Instant) : ∀ c ∈ dateDigits t, c.isDigit = true := by
  intro c member
  unfold dateDigits at member
  rw [List.mem_append, List.mem_append] at member
  rcases member with (inYear | inMonth) | inDay
  · exact padDigits_isDigit _ _ c inYear
  · exact padDigits_isDigit _ _ c inMonth
  · exact padDigits_isDigit _ _ c inDay

theorem nameStamp_valid (job : Job) (strat : Strategy) (now : Instant) :
    (nameStamp job strat now).Valid where
  strat := by cases strat <;> simp [nameStamp, strategyToken]
  dateLength := by simp [nameStamp, dateDigits]
  dateDigits := by simpa [nameStamp] using dateDigits_isDigit now
  timeLength := by simp [nameStamp]
  timeDigits := by simpa [nameStamp] using clockDigits_isDigit now
  suffix := by simp [nameStamp]
  format := by
    have all : ∀ ext ∈ [".couch", ".influx", ".mongo", ".redis", ".sql"],
        trimPrefix ext "." ∈ ["sql", "mongo", "redis", "influx", "couch"] := by decide
    have member := all _ (formatExtension_mem job.type)
    simpa only [nameStamp] using member
  compress := by
    intro word
    show compressWord job.compression = some word → _
    cases job.compression <;> rintro ⟨⟩ <;> decide
  enc := by
    intro word
    show encWord job.encryption = some word → _
    cases job.encryption <;> rintro ⟨⟩ <;> decide

theorem nameEnding_toList (job : Job) (strat : Strategy) (now : Instant) :
    (nameEnding job).toList = (nameStamp job strat now).ending := by
  have format : ∀ ext ∈ [".couch", ".influx", ".mongo", ".redis", ".sql"],
      ext.toList = '.' :: (trimPrefix ext ".").toList := by decide
  have compression : job.compression.extension.toList =
      optionalPart '.' (compressWord job.compression) := by
    cases job.compression <;> rfl
  have encryption : (if job.encryption = .none then "" else job.encryption.extension).toList =
      optionalPart '.' (encWord job.encryption) := by
    cases job.encryption <;> decide
  unfold nameEnding Stamp.ending
  rw [String.toList_append, String.toList_append, compression, encryption,
    format _ (formatExtension_mem job.type)]
  simp only [nameStamp, List.cons_append]

/-- What stands after the tokens of a default name. -/
def nameTail (job : Job) (strat : Strategy) (now : Instant) : List Char :=
  ((strategyToken strat).toList ++ '-' :: dateText now) ++
    '-' :: (clockDigits now ++ (nameStamp job strat now).ending)

variable {job : Job}

theorem defaultName_toList (tokens : ¬ NoTokens job.id) (strat : Strategy) (now : Instant) :
    (defaultName job strat now).toList =
      (joinNonEmpty "-" [job.type, job.dbTok, job.hostTok]).toList ++
        '-' :: nameTail job strat now := by
  rw [defaultName_eq, expandFilename_eq tokens]
  unfold backupPrefix nameTail
  simp only [String.toList_append, formatCompact_toList, nameEnding_toList job strat now]
  simp [Job.dbTok, Job.hostTok, Job.id]

theorem defaultName_toList_of_noTokens (tokens : NoTokens job.id) (strat : Strategy)
    (now : Instant) : (defaultName job strat now).toList = nameTail job strat now := by
  rw [defaultName_eq, expandFilename_of_noTokens tokens]
  unfold nameTail
  simp only [String.toList_append, formatCompact_toList, nameEnding_toList job strat now]
  simp

variable {strat : Strategy} {now : Instant}

/-- Reading a text that ends as a default name does: the year has four digits,
the stamp read is the stamp of the name, and the captures make up what stands
before it. -/
theorem stamp_of_nameTail {stamp : Stamp} (valid : stamp.Valid) {captures before : List Char}
    (same : captures ++ '-' :: stamp.render = before ++ '-' :: nameTail job strat now) :
    (0 ≤ now.year ∧ now.year ≤ 9999) ∧ captures = before ∧
      stamp.captures {} = (nameStamp job strat now).captures {} := by
  obtain ⟨digits, shape, allDigits, long, eight⟩ := dateText_shape now
  have digitsNoDash := not_mem_of_digits (by decide : '-'.isDigit = false) allDigits
  have nameValid := nameStamp_valid job strat now
  have lastNoDash : '-' ∉ clockDigits now ++ (nameStamp job strat now).ending := by
    have := not_mem_of_digits (by decide : '-'.isDigit = false) (clockDigits_isDigit now)
    simp [this, nameValid.ending_noDash]
  unfold nameTail at same
  rw [shape] at same
  by_cases negative : now.year < 0
  · rw [if_pos negative] at same
    have regrouped : captures ++ '-' :: stamp.render =
        (((before ++ '-' :: (strategyToken strat).toList) ++ '-' :: []) ++ '-' :: digits) ++
          '-' :: (clockDigits now ++ (nameStamp job strat now).ending) := by
      simpa using same
    obtain ⟨-, -, -, sameStart⟩ := stamp.tail_unique valid long digitsNoDash lastNoDash regrouped
    have noStrat := (append_cons_inj_right valid.strat_noDash (by simp) sameStart).2
    exact absurd noStrat valid.strat_ne_nil
  · rw [if_neg negative] at same
    have regrouped : captures ++ '-' :: stamp.render =
        ((before ++ '-' :: (strategyToken strat).toList) ++ '-' :: digits) ++
          '-' :: (clockDigits now ++ (nameStamp job strat now).ending) := by
      simpa using same
    obtain ⟨noSuffix, sameDate, sameLast, sameStart⟩ :=
      stamp.tail_unique valid long digitsNoDash lastNoDash regrouped
    obtain ⟨sameCaptures, sameStrat⟩ :=
      append_cons_inj_right valid.strat_noDash (strategyToken_noDash strat) sameStart
    have lengthDate := congrArg List.length sameDate
    rw [valid.dateLength] at lengthDate
    have yearFits := eight lengthDate.symm
    have inRange : 0 ≤ now.year ∧ now.year ≤ 9999 := by omega
    refine ⟨inRange, sameCaptures, ?_⟩
    have isDate : stamp.date = (nameStamp job strat now).date := by
      apply String.toList_injective
      have := dateText_eq inRange.1 inRange.2
      rw [shape, if_neg negative, List.nil_append] at this
      rw [sameDate, this]
      simp [nameStamp]
    obtain ⟨sameTime, sameEnding⟩ := List.append_inj sameLast (by simp [valid.timeLength])
    have isTime : stamp.time = (nameStamp job strat now).time := by
      apply String.toList_injective
      rw [sameTime]
      simp [nameStamp]
    have isStrat : stamp.strat = (nameStamp job strat now).strat :=
      String.toList_injective sameStrat
    obtain ⟨-, isCompress, isEnc⟩ := Stamp.ending_injective valid nameValid sameEnding
    simp [Stamp.captures, isDate, isTime, isStrat, isCompress, isEnc]

theorem nameTail_noSlash (job : Job) (strat : Strategy) (now : Instant) :
    '/' ∉ nameTail job strat now := by
  have noStrat : '/' ∉ (strategyToken strat).toList := by cases strat <;> decide
  have noDate : '/' ∉ dateText now := by
    obtain ⟨digits, shape, allDigits, -⟩ := dateText_shape now
    have := not_mem_of_digits (by decide : '/'.isDigit = false) allDigits
    rw [shape]
    split <;> simp [this]
  have noClock := not_mem_of_digits (by decide : '/'.isDigit = false) (clockDigits_isDigit now)
  have noEnding := (nameStamp_valid job strat now).not_mem_ending (by decide : '/' ≠ '.')
    (by decide)
  simp [nameTail, noStrat, noDate, noClock, noEnding]

/-- The last path element of a default name: an end of its tokens without a
slash, and the tail. -/
theorem filepathBase_defaultName (tokens : ¬ NoTokens job.id) (strat : Strategy) (now : Instant) :
    ∃ start before,
      (joinNonEmpty "-" [job.type, job.dbTok, job.hostTok]).toList = start ++ before ∧
        (filepathBase (defaultName job strat now)).toList =
          before ++ '-' :: nameTail job strat now ∧ '/' ∉ before := by
  have shape := defaultName_toList tokens strat now
  have noSlash : '/' ∉ '-' :: nameTail job strat now := by
    simp [nameTail_noSlash job strat now]
  have notEmpty : defaultName job strat now ≠ "" := by
    intro empty
    rw [empty] at shape
    have := congrArg List.length shape
    simp at this
  have last : (defaultName job strat now).toList.getLast? ≠ some '/' := by
    rw [shape, List.getLast?_append_of_ne_nil _ (by simp)]
    intro isLast
    exact noSlash (List.mem_of_getLast? isLast)
  obtain ⟨start, split, baseNoSlash, cut⟩ := filepathBase_split notEmpty last
  rw [shape] at split
  rcases List.append_eq_append_iff.mp split with ⟨extra, startIs, tailIs⟩ | ⟨before, tokensAre, baseIs⟩
  · -- the cut cannot lie behind the tokens, where there is no slash
    have extraEmpty : extra = [] := by
      rcases cut with noStart | slash
      · rw [noStart] at startIs
        exact (List.append_eq_nil_iff.mp startIs.symm).2
      · by_contra notNil
        rw [startIs, List.getLast?_append_of_ne_nil _ notNil] at slash
        apply noSlash
        rw [tailIs]
        exact List.mem_append_left _ (List.mem_of_getLast? slash)
    refine ⟨start, [], ?_, ?_, by simp⟩
    · rw [startIs, extraEmpty, List.append_nil, List.append_nil]
    · rw [tailIs, extraEmpty]
      simp
  · rw [baseIs] at baseNoSlash
    exact ⟨start, before, tokensAre, baseIs, fun member =>
      baseNoSlash (List.mem_append_left _ member)⟩

theorem filepathBase_defaultName_of_noTokens (tokens : NoTokens job.id)
    (strat : Strategy) (now : Instant) :
    (filepathBase (defaultName job strat now)).toList = nameTail job strat now := by
  have shape := defaultName_toList_of_noTokens tokens strat now
  have noSlash : '/' ∉ (defaultName job strat now).toList := by
    rw [shape]
    exact nameTail_noSlash job strat now
  have notEmpty : defaultName job strat now ≠ "" := by
    intro empty
    rw [empty] at shape
    have := congrArg List.length shape
    simp [nameTail] at this
  rw [filepathBase_eq_self notEmpty noSlash, shape]

/-! ### The tokens before the tail -/

theorem joinNonEmpty_three {a b c : String}
    (long : a.toList.length + b.toList.length + c.toList.length + 2 ≤
      (joinNonEmpty "-" [a, b, c]).toList.length) :
    a ≠ "" ∧ b ≠ "" ∧ c ≠ "" ∧
      (joinNonEmpty "-" [a, b, c]).toList = a.toList ++ '-' :: (b.toList ++ '-' :: c.toList) := by
  unfold joinNonEmpty at *
  by_cases noA : a = "" <;> by_cases noB : b = "" <;> by_cases noC : c = "" <;>
    simp [noA, noB, noC, String.intercalate_cons_cons] at long ⊢
  all_goals omega

theorem joinNonEmpty_two {a b : String} (long : a.toList.length + b.toList.length + 1 ≤
      (joinNonEmpty "-" [a, b, ""]).toList.length) :
    a ≠ "" ∧ b ≠ "" ∧
      (joinNonEmpty "-" [a, b, ""]).toList = a.toList ++ '-' :: b.toList := by
  unfold joinNonEmpty at *
  by_cases noA : a = "" <;> by_cases noB : b = "" <;>
    simp [noA, noB, String.intercalate_cons_cons] at long ⊢

theorem joinNonEmpty_one (a : String) : joinNonEmpty "-" [a, "", ""] = a := by
  unfold joinNonEmpty
  by_cases noA : a = "" <;> simp [noA]

theorem noTokens_iff (job : Job) :
    NoTokens job.id ↔ job.type = "" ∧ job.dbTok = "" ∧ job.hostTok = "" :=
  Iff.rfl

/-! ### Names that read back -/

/-- Whatever is read from a default name, the captures make up an end of its
tokens, and the year has four digits. -/
theorem captures_of_defaultName {stamp : Stamp} (valid : stamp.Valid) {captures : List Char}
    (shape : (filepathBase (defaultName job strat now)).toList = captures ++ '-' :: stamp.render) :
    (0 ≤ now.year ∧ now.year ≤ 9999) ∧ ¬ NoTokens job.id ∧
      (∃ start, (joinNonEmpty "-" [job.type, job.dbTok, job.hostTok]).toList = start ++ captures) ∧
      '/' ∉ captures ∧ stamp.captures {} = (nameStamp job strat now).captures {} := by
  by_cases tokens : NoTokens job.id
  · -- a dash in front of everything turns the tail into a name with an empty token
    rw [filepathBase_defaultName_of_noTokens tokens strat now] at shape
    have dashed : ('-' :: captures) ++ '-' :: stamp.render = [] ++ '-' :: nameTail job strat now := by
      simp [shape]
    obtain ⟨-, noCaptures, -⟩ := stamp_of_nameTail valid dashed
    simp at noCaptures
  · obtain ⟨start, before, tokensAre, baseIs, noSlash⟩ :=
      filepathBase_defaultName tokens strat now
    rw [baseIs] at shape
    obtain ⟨yearFits, sameCaptures, sameStamp⟩ := stamp_of_nameTail valid shape.symm
    rw [sameCaptures]
    exact ⟨yearFits, tokens, ⟨start, tokensAre⟩, noSlash, sameStamp⟩

theorem readable_of_readsBack (readsBack : ReadsBack job strat now) : Readable job now := by
  obtain ⟨info, parsed, sameType, sameDb, sameHost, -⟩ := readsBack
  obtain ⟨tokens, timestamp, found, -, rfl⟩ := parseBackupFilename_eq_ok_iff.mp parsed
  dsimp only at sameType sameDb sameHost
  cases reading_of_filenameTokens found with
  | withHost t d h stamp valid shape noNewline noDash =>
    simp only [Stamp.captures] at sameType sameDb sameHost
    rw [sameType, sameDb, sameHost] at shape noNewline
    rw [sameType] at noDash
    have grouped : (filepathBase (defaultName job strat now)).toList =
        (job.type.toList ++ '-' :: (job.dbTok.toList ++ '-' :: job.hostTok.toList)) ++
          '-' :: stamp.render := by
      simp [shape]
    obtain ⟨yearFits, -, ⟨start, split⟩, noSlash, -⟩ := captures_of_defaultName valid grouped
    have long := congrArg List.length split
    simp only [List.length_append, List.length_cons] at long
    obtain ⟨typeSet, dbSet, hostSet, -⟩ :=
      @joinNonEmpty_three job.type job.dbTok job.hostTok (by omega)
    obtain ⟨dbNoDash, hostNoDash⟩ := dash_not_mem_tokens hostSet
    simp only [List.mem_append, List.mem_cons, not_or] at noSlash
    exact ⟨typeSet, ⟨noDash, noSlash.1, noNewline.1⟩, ⟨dbNoDash, noSlash.2.2.1, noNewline.2.1⟩,
      ⟨hostNoDash, noSlash.2.2.2.2, noNewline.2.2⟩, fun noDb => absurd noDb dbSet, yearFits⟩
  | noHost t d stamp valid shape noNewline noDash =>
    simp only [Stamp.captures] at sameType sameDb sameHost
    rw [sameType, sameDb] at shape noNewline noDash
    have grouped : (filepathBase (defaultName job strat now)).toList =
        (job.type.toList ++ '-' :: job.dbTok.toList) ++ '-' :: stamp.render := by
      simp [shape]
    obtain ⟨yearFits, -, ⟨start, split⟩, noSlash, -⟩ := captures_of_defaultName valid grouped
    rw [← sameHost] at split
    have long := congrArg List.length split
    simp only [List.length_append, List.length_cons] at long
    obtain ⟨typeSet, dbSet, -⟩ := @joinNonEmpty_two job.type job.dbTok (by omega)
    simp only [List.mem_append, List.mem_cons, not_or] at noSlash
    refine ⟨typeSet, ⟨noDash.1, noSlash.1, noNewline.1⟩, ⟨noDash.2, noSlash.2.2, noNewline.2⟩,
      ?_, fun noDb => absurd noDb dbSet, yearFits⟩
    rw [← sameHost]
    simp [Plain]
  | typeOnly t stamp valid shape noNewline noDash =>
    simp only [Stamp.captures] at sameType sameDb sameHost
    rw [sameType] at shape noNewline noDash
    obtain ⟨yearFits, tokens, -, noSlash, -⟩ := captures_of_defaultName valid shape
    have typeSet : job.type ≠ "" := by
      intro noType
      exact tokens ((noTokens_iff job).mpr ⟨noType, sameDb.symm, sameHost.symm⟩)
    refine ⟨typeSet, ⟨noDash, noSlash, noNewline⟩, ?_, ?_, fun _ => sameHost.symm, yearFits⟩
    · rw [← sameDb]
      simp [Plain]
    · rw [← sameHost]
      simp [Plain]

/-- The tokens of a readable job, joined. -/
theorem Readable.tokens_cases (readable : Readable job now) : (job.dbTok = "" ∧ job.hostTok = "" ∧
        (joinNonEmpty "-" [job.type, job.dbTok, job.hostTok]).toList = job.type.toList) ∨
      (job.dbTok ≠ "" ∧ job.hostTok = "" ∧
        (joinNonEmpty "-" [job.type, job.dbTok, job.hostTok]).toList =
          job.type.toList ++ '-' :: job.dbTok.toList) ∨
      (joinNonEmpty "-" [job.type, job.dbTok, job.hostTok]).toList =
          job.type.toList ++ '-' :: (job.dbTok.toList ++ '-' :: job.hostTok.toList) := by
  have typeSet := readable.typeSet
  by_cases noDb : job.dbTok = ""
  · have noHost := readable.hostAfterDb noDb
    exact .inl ⟨noDb, noHost, by rw [noDb, noHost, joinNonEmpty_one]⟩
  · by_cases noHost : job.hostTok = ""
    · exact .inr (.inl ⟨noDb, noHost, by
        simp [joinNonEmpty, typeSet, noDb, noHost, String.intercalate_cons_cons]⟩)
    · exact .inr (.inr (by
        simp [joinNonEmpty, typeSet, noDb, noHost, String.intercalate_cons_cons]))

/-- The tokens read from the name of a readable job are its tokens. The joined
tokens have as many dashes as separators, so a reading with more or fewer
captures cannot make them up. -/
theorem Readable.captures_eq {tokens : Tokens} (readable : Readable job now)
    (whole : (filepathBase (defaultName job strat now)).toList =
      (joinNonEmpty "-" [job.type, job.dbTok, job.hostTok]).toList ++ '-' :: nameTail job strat now)
    (reading : Reading (filepathBase (defaultName job strat now)) tokens) :
    tokens = (nameStamp job strat now).captures
      { typeTok := job.type, dbTok := job.dbTok, hostTok := job.hostTok } := by
  have typeDashes := List.count_eq_zero.mpr readable.typePlain.1
  have dbDashes := List.count_eq_zero.mpr readable.dbPlain.1
  have hostDashes := List.count_eq_zero.mpr readable.hostPlain.1
  cases reading with
  | withHost t d h stamp valid shape noNewline noDash =>
    have grouped : (t.toList ++ '-' :: (d.toList ++ '-' :: h.toList)) ++ '-' :: stamp.render =
        (joinNonEmpty "-" [job.type, job.dbTok, job.hostTok]).toList ++
          '-' :: nameTail job strat now := by
      rw [← whole, shape]
      simp
    obtain ⟨-, same, sameStamp⟩ := stamp_of_nameTail valid grouped
    have dashes := congrArg (List.count '-') same
    simp only [List.count_append, List.count_cons_self] at dashes
    rcases readable.tokens_cases with ⟨_, _, joined⟩ | ⟨_, _, joined⟩ | joined
    · rw [joined] at dashes
      omega
    · rw [joined, List.count_append, List.count_cons_self] at dashes
      omega
    · rw [joined] at same dashes
      simp only [List.count_append, List.count_cons_self] at dashes
      obtain ⟨sameType, sameRest⟩ :=
        append_cons_inj_left noDash readable.typePlain.1 same
      have hNoDash : '-' ∉ h.toList := List.count_eq_zero.mp (by omega)
      obtain ⟨sameDb, sameHost⟩ :=
        append_cons_inj_right hNoDash readable.hostPlain.1 sameRest
      rw [Stamp.captures_congr sameStamp, String.toList_injective sameType,
        String.toList_injective sameDb, String.toList_injective sameHost]
  | noHost t d stamp valid shape noNewline noDash =>
    have grouped : (t.toList ++ '-' :: d.toList) ++ '-' :: stamp.render =
        (joinNonEmpty "-" [job.type, job.dbTok, job.hostTok]).toList ++
          '-' :: nameTail job strat now := by
      rw [← whole, shape]
      simp
    obtain ⟨-, same, sameStamp⟩ := stamp_of_nameTail valid grouped
    have dashes := congrArg (List.count '-') same
    have tDashes := List.count_eq_zero.mpr noDash.1
    have dDashes := List.count_eq_zero.mpr noDash.2
    simp only [List.count_append, List.count_cons_self] at dashes
    rcases readable.tokens_cases with ⟨_, _, joined⟩ | ⟨_, noHost, joined⟩ | joined
    · rw [joined] at dashes
      omega
    · rw [joined] at same
      obtain ⟨sameType, sameDb⟩ := append_cons_inj_left noDash.1 readable.typePlain.1 same
      rw [Stamp.captures_congr sameStamp, String.toList_injective sameType,
        String.toList_injective sameDb, noHost]
    · rw [joined] at dashes
      simp only [List.count_append, List.count_cons_self] at dashes
      omega
  | typeOnly t stamp valid shape noNewline noDash =>
    rw [whole] at shape
    obtain ⟨-, same, sameStamp⟩ := stamp_of_nameTail valid shape.symm
    have dashes := congrArg (List.count '-') same
    have tDashes := List.count_eq_zero.mpr noDash
    rcases readable.tokens_cases with ⟨noDb, noHost, joined⟩ | ⟨_, _, joined⟩ | joined
    · rw [joined] at same
      rw [Stamp.captures_congr sameStamp, String.toList_injective same, noDb, noHost]
    · rw [joined, List.count_append, List.count_cons_self] at dashes
      omega
    · rw [joined] at dashes
      simp only [List.count_append, List.count_cons_self] at dashes
      omega

/-- Some pattern reads the name of a readable job. -/
theorem Readable.exists_tokens (readable : Readable job now)
    (whole : (filepathBase (defaultName job strat now)).toList =
      (joinNonEmpty "-" [job.type, job.dbTok, job.hostTok]).toList ++ '-' :: nameTail job strat now) :
    ∃ tokens, filenameTokens (filepathBase (defaultName job strat now)) = some tokens := by
  have valid := nameStamp_valid job strat now
  have tail : nameTail job strat now = (nameStamp job strat now).render := by
    unfold nameTail Stamp.render
    rw [dateText_eq readable.yearFits.1 readable.yearFits.2]
    simp [nameStamp, optionalPart]
  rw [tail] at whole
  cases found : filenameTokens (filepathBase (defaultName job strat now)) with
  | some tokens => exact ⟨tokens, rfl⟩
  | none =>
    exfalso
    obtain ⟨-, noThree, noTwo, noOne⟩ := filenameTokens_eq_none found
    rw [fullMatch_eq_none_iff] at noThree noTwo noOne
    rcases readable.tokens_cases with ⟨_, _, joined⟩ | ⟨_, _, joined⟩ | joined
    · rw [joined] at whole
      exact noOne _ (mem_ways_backupReTypeOnly.mpr ⟨job.type, _, valid, whole,
        readable.typePlain.2.2, rfl⟩)
    · rw [joined] at whole
      exact noTwo _ (mem_ways_backupReNoHost.mpr ⟨job.type, job.dbTok, _, valid,
        by simp [whole], ⟨readable.typePlain.2.2, readable.dbPlain.2.2⟩, rfl⟩)
    · rw [joined] at whole
      exact noThree _ (mem_ways_backupRe.mpr ⟨job.type, job.dbTok, job.hostTok, _, valid,
        by simp [whole],
        ⟨readable.typePlain.2.2, readable.dbPlain.2.2, readable.hostPlain.2.2⟩, rfl⟩)

theorem readsBack_of_readable (readable : Readable job now)
    (strat : Strategy) : ReadsBack job strat now := by
  have tokensSet : ¬ NoTokens job.id := fun noTokens => readable.typeSet noTokens.1
  have shape := defaultName_toList tokensSet strat now
  have noSlash : '/' ∉ (defaultName job strat now).toList := by
    have tailNoSlash := nameTail_noSlash job strat now
    have typeNoSlash := readable.typePlain.2.1
    have dbNoSlash := readable.dbPlain.2.1
    have hostNoSlash := readable.hostPlain.2.1
    rw [shape]
    rcases readable.tokens_cases with ⟨_, _, joined⟩ | ⟨_, _, joined⟩ | joined
    · simp [joined, tailNoSlash, typeNoSlash]
    · simp [joined, tailNoSlash, typeNoSlash, dbNoSlash]
    · simp [joined, tailNoSlash, typeNoSlash, dbNoSlash, hostNoSlash]
  have notEmpty : defaultName job strat now ≠ "" := by
    intro empty
    rw [empty] at shape
    simpa using congrArg List.length shape
  have base := filepathBase_eq_self notEmpty noSlash
  have whole : (filepathBase (defaultName job strat now)).toList =
      (joinNonEmpty "-" [job.type, job.dbTok, job.hostTok]).toList ++
        '-' :: nameTail job strat now := by
    rw [base, shape]
  obtain ⟨tokens, found⟩ := readable.exists_tokens whole
  have isTokens := readable.captures_eq whole (reading_of_filenameTokens found)
  have isStamp : tokens.tsTok = formatCompact now := by
    apply String.toList_injective
    rw [isTokens, formatCompact_toList, dateText_eq readable.yearFits.1 readable.yearFits.2]
    simp [Stamp.captures, nameStamp]
  have timestamp : parseCompact tokens.tsTok = some { nanos := now.localSeconds * second } := by
    rw [isStamp]
    exact parseCompact_formatCompact readable.yearFits.1 readable.yearFits.2
  refine ⟨_, parseBackupFilename_eq_ok_iff.mpr ⟨tokens, _, found, timestamp, rfl⟩, ?_⟩
  · rw [isTokens]
    refine ⟨rfl, rfl, rfl, ?_, rfl, ?_, ?_⟩
    · show strategyOfToken (strategyToken strat) = strat
      cases strat <;> decide
    · show Compression.parse (if (compressWord job.compression).getD "" = "" then "" else
        extToCompress ("." ++ (compressWord job.compression).getD "")) = job.compression
      cases job.compression <;> decide
    · show Encryption.parse (extToEncryption
        (((encWord job.encryption).map ("." ++ ·)).getD "")) = job.encryption
      cases job.encryption <;> decide

theorem defaultName_readsBack_iff (job : Job) (strat : Strategy) (now : Instant) :
    ReadsBack job strat now ↔ Readable job now :=
  ⟨readable_of_readsBack, fun readable => readsBack_of_readable readable strat⟩

/-! ### A dash in the name of a file -/

def sqliteJob : Job where
  type := "sqlite"
  host := ""
  databases := ["/data/my-app.db"]
  strategy := .full

/-- The token `my-app` comes back as the database `my` on the host `app`. -/
theorem sqlite_name_misread :
    sqliteJob.dbTok = "my-app" ∧ ¬ ReadsBack sqliteJob .full { nanos := 1700000000 * second } := by
  have token : sqliteJob.dbTok = "my-app" := by decide
  refine ⟨token, ?_⟩
  intro readsBack
  have plain := (readable_of_readsBack readsBack).dbPlain.1
  rw [token] at plain
  exact plain (by decide)

end DbBackup.Runner.Chain
