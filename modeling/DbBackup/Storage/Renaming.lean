import DbBackup.Lib.Scan
import DbBackup.Storage.Agreement
import Mathlib.Data.Finset.Card

/-!
Owns the collision renaming of `UniqueBackupName`: which names keep what
`ParseBackupFilename` reads from them when `-N` is put before their first dot.

Contract: for fewer than 900 taken names the result is free and reads as the
name did exactly if the name was free or its first dot is in a folder or starts
the ending of a stamp without a suffix (`Renamable`).

Does not own: the patterns (`Storage.Pattern`).
-/

set_option linter.all false

namespace DbBackup.Storage

open Lib.Backtrack Lib.Delimited Lib.GoString Lib.Scan Lib.Time

/-! ### One stamp per name -/

theorem Stamp.ext_fields {stamp other : Stamp} (strat : stamp.strat.toList = other.strat.toList)
    (date : stamp.date.toList = other.date.toList) (time : stamp.time.toList = other.time.toList)
    (suffix : stamp.suffix = other.suffix)
    (ending : stamp.format = other.format ∧ stamp.compress = other.compress ∧
      stamp.enc = other.enc) : stamp = other := by
  have sameStrat := String.toList_injective strat
  have sameDate := String.toList_injective date
  have sameTime := String.toList_injective time
  cases stamp
  cases other
  simp_all

theorem Stamp.unique {stamp other : Stamp} (valid : stamp.Valid) (otherValid : other.Valid)
    {start otherStart : List Char}
    (same : start ++ '-' :: stamp.render = otherStart ++ '-' :: other.render) :
    start = otherStart ∧ stamp = other := by
  have isDash : '-'.isDigit = false := by decide
  have isDot : '.'.isDigit = false := by decide
  have unsuffixed : ∀ {stamp other : Stamp} {start otherStart : List Char}, stamp.Valid →
      other.Valid → other.suffix = none →
      start ++ '-' :: stamp.render = otherStart ++ '-' :: other.render →
      start = otherStart ∧ stamp = other := by
    intro stamp other start otherStart valid otherValid none same
    have lastNoDash : '-' ∉ other.time.toList ++ other.ending := by
      simp [not_mem_of_digits isDash otherValid.timeDigits, otherValid.ending_noDash]
    rw [other.render_eq otherStart, none] at same
    obtain ⟨stampNone, date, last, before⟩ := Stamp.tail_unique valid
      (by rw [otherValid.dateLength]) (not_mem_of_digits isDash otherValid.dateDigits) lastNoDash
      same
    obtain ⟨sameStart, strat⟩ := append_cons_inj_right valid.strat_noDash otherValid.strat_noDash
      before
    have lengths : stamp.time.toList.length = other.time.toList.length := by
      rw [valid.timeLength, otherValid.timeLength]
    obtain ⟨time, ending⟩ := List.append_inj last lengths
    exact ⟨sameStart, Stamp.ext_fields strat date time (stampNone.trans none.symm)
      (Stamp.ending_injective valid otherValid ending)⟩
  cases otherSuffix : other.suffix with
  | none => exact unsuffixed valid otherValid otherSuffix same
  | some m =>
  cases suffix : stamp.suffix with
  | none =>
    obtain ⟨sameStart, sameStamp⟩ := unsuffixed otherValid valid suffix same.symm
    exact ⟨sameStart.symm, sameStamp.symm⟩
  | some n =>
    rw [stamp.render_eq start, other.render_eq otherStart, suffix, otherSuffix] at same
    have nDigits := (valid.suffix n suffix).2
    have mDigits := (otherValid.suffix m otherSuffix).2
    obtain ⟨before, last⟩ := append_cons_inj_right
      (by simp [not_mem_of_digits isDash nDigits, valid.ending_noDash])
      (by simp [not_mem_of_digits isDash mDigits, otherValid.ending_noDash]) same
    obtain ⟨before, time⟩ := append_cons_inj_right
      (not_mem_of_digits isDash valid.timeDigits)
      (not_mem_of_digits isDash otherValid.timeDigits) before
    obtain ⟨before, date⟩ := append_cons_inj_right
      (not_mem_of_digits isDash valid.dateDigits)
      (not_mem_of_digits isDash otherValid.dateDigits) before
    obtain ⟨sameStart, strat⟩ := append_cons_inj_right valid.strat_noDash
      otherValid.strat_noDash before
    obtain ⟨number, ending⟩ := append_cons_inj_left (not_mem_of_digits isDot nDigits)
      (not_mem_of_digits isDot mDigits) last
    refine ⟨sameStart, Stamp.ext_fields strat date time ?_ ?_⟩
    · rw [suffix, otherSuffix, String.toList_injective number]
    · exact Stamp.ending_injective valid otherValid (congrArg (List.cons '.') ending)

/-! ### The start of a name -/

def EndsInAddress (start : List Char) : Prop :=
  ∃ t d h : String, start = t.toList ++ '-' :: (d.toList ++ '-' :: h.toList) ∧ IsAddress h

/-- How the text before the stamp is taken apart. -/
inductive StartReading (start : List Char) : Tokens → Prop where
  | address (t d h : String) (shape : start = t.toList ++ '-' :: (d.toList ++ '-' :: h.toList))
      (noDash : '-' ∉ t.toList) (isAddress : IsAddress h) :
      StartReading start { typeTok := t, dbTok := d, hostTok := h }
  | withHost (t d h : String) (shape : start = t.toList ++ '-' :: (d.toList ++ '-' :: h.toList))
      (noDash : '-' ∉ t.toList ∧ '-' ∉ d.toList) (noAddress : ¬ EndsInAddress start) :
      StartReading start { typeTok := t, dbTok := d, hostTok := h }
  | noHost (t d : String) (shape : start = t.toList ++ '-' :: d.toList)
      (noDash : '-' ∉ t.toList ∧ '-' ∉ d.toList) :
      StartReading start { typeTok := t, dbTok := d }
  | typeOnly (t : String) (shape : start = t.toList) (noDash : '-' ∉ t.toList) :
      StartReading start { typeTok := t }

theorem IsAddress.noDash {word : String} (address : IsAddress word) : '-' ∉ word.toList := by
  obtain ⟨a, b, c, d, parts, rfl⟩ := address
  have clean : ∀ part ∈ [a, b, c, d], '-' ∉ part.toList := fun part member =>
    not_mem_of_digits (by decide) (parts part member).2
  simpa using clean

variable {start : List Char} {read : Tokens}

/-- The texts the dashes of a start delimit, up to its reading. -/
theorem StartReading.shape (reading : StartReading start read) : '-' ∉ read.typeTok.toList ∧
      (start = read.typeTok.toList ++
          '-' :: (read.dbTok.toList ++ '-' :: read.hostTok.toList) ∨
        (start = read.typeTok.toList ++ '-' :: read.dbTok.toList ∧ read.hostTok = "" ∧
          '-' ∉ read.dbTok.toList) ∨
        (start = read.typeTok.toList ∧ read.dbTok = "" ∧ read.hostTok = "")) := by
  cases reading with
  | address t d h shape noDash => exact ⟨noDash, .inl shape⟩
  | withHost t d h shape noDash => exact ⟨noDash.1, .inl shape⟩
  | noHost t d shape noDash => exact ⟨noDash.1, .inr (.inl ⟨shape, rfl, noDash.2⟩)⟩
  | typeOnly t shape noDash => exact ⟨noDash, .inr (.inr ⟨shape, rfl, rfl⟩)⟩

private theorem not_noHost {start : List Char} {t d h t' d' : String}
    (shape : start = t.toList ++ '-' :: (d.toList ++ '-' :: h.toList)) (noDash : '-' ∉ t.toList)
    (other : start = t'.toList ++ '-' :: d'.toList)
    (otherNoDash : '-' ∉ t'.toList ∧ '-' ∉ d'.toList) : False := by
  have tails := (append_cons_inj_left noDash otherNoDash.1 (shape.symm.trans other)).2
  apply otherNoDash.2
  rw [← tails]
  simp

private theorem not_typeOnly {start rest : List Char} {t t' : String}
    (shape : start = t.toList ++ '-' :: rest) (other : start = t'.toList)
    (otherNoDash : '-' ∉ t'.toList) : False := by
  apply otherNoDash
  rw [← other, shape]
  simp

/-- A start is taken apart in one way. -/
theorem StartReading.functional {read other : Tokens}
    (reading : StartReading start read) (otherReading : StartReading start other) :
    read = other := by
  cases reading with
  | address t d h shape noDash isAddress =>
    cases otherReading with
    | address t' d' h' shape' noDash' isAddress' =>
      obtain ⟨sameT, tails⟩ := append_cons_inj_left noDash noDash' (shape.symm.trans shape')
      obtain ⟨sameD, sameH⟩ := append_cons_inj_right isAddress.noDash isAddress'.noDash tails
      rw [String.toList_injective sameT, String.toList_injective sameD,
        String.toList_injective sameH]
    | withHost t' d' h' shape' noDash' noAddress =>
      exact absurd ⟨t, d, h, shape, isAddress⟩ noAddress
    | noHost t' d' shape' noDash' => exact (not_noHost shape noDash shape' noDash').elim
    | typeOnly t' shape' noDash' => exact (not_typeOnly shape shape' noDash').elim
  | withHost t d h shape noDash noAddress =>
    cases otherReading with
    | address t' d' h' shape' noDash' isAddress =>
      exact absurd ⟨t', d', h', shape', isAddress⟩ noAddress
    | withHost t' d' h' shape' noDash' =>
      obtain ⟨sameT, tails⟩ := append_cons_inj_left noDash.1 noDash'.1
        (shape.symm.trans shape')
      obtain ⟨sameD, sameH⟩ := append_cons_inj_left noDash.2 noDash'.2 tails
      rw [String.toList_injective sameT, String.toList_injective sameD,
        String.toList_injective sameH]
    | noHost t' d' shape' noDash' => exact (not_noHost shape noDash.1 shape' noDash').elim
    | typeOnly t' shape' noDash' => exact (not_typeOnly shape shape' noDash').elim
  | noHost t d shape noDash =>
    cases otherReading with
    | address t' d' h' shape' noDash' => exact (not_noHost shape' noDash' shape noDash).elim
    | withHost t' d' h' shape' noDash' => exact (not_noHost shape' noDash'.1 shape noDash).elim
    | noHost t' d' shape' noDash' =>
      obtain ⟨sameT, sameD⟩ := append_cons_inj_left noDash.1 noDash'.1
        (shape.symm.trans shape')
      rw [String.toList_injective sameT, String.toList_injective sameD]
    | typeOnly t' shape' noDash' => exact (not_typeOnly shape shape' noDash').elim
  | typeOnly t shape noDash =>
    cases otherReading with
    | address t' d' h' shape' => exact (not_typeOnly shape' shape noDash).elim
    | withHost t' d' h' shape' => exact (not_typeOnly shape' shape noDash).elim
    | noHost t' d' shape' => exact (not_typeOnly shape' shape noDash).elim
    | typeOnly t' shape' => rw [String.toList_injective (shape.symm.trans shape')]

variable {base : String}

theorem dbTok_noDash_backupRe {tokens : Tokens}
    (found : fullMatch backupRe base = some tokens) : '-' ∉ tokens.dbTok.toList := by
  have typeNoDash := typeTok_noDash_backupRe found
  obtain ⟨t, d, h, stamp, valid, shape, ⟨tOk, dOk, hOk⟩, isTokens⟩ :=
    mem_ways_backupRe.mp (mem_ways_of_fullMatch found)
  have isType : tokens.typeTok = t := by rw [isTokens]; rfl
  rw [isType] at typeNoDash
  have afterType := @fullMatch_of_fullMatch_lazyAny _ base
    (fun t => do
      let dbTok ← lazyAny
      literal "-"
      let hostTok ← lazyAny
      literal "-"
      stampPart { typeTok := t, dbTok := dbTok, hostTok := hostTok })
    '-' t.toList _ typeNoDash tOk shape (by
      refine ⟨stamp.captures { typeTok := t, dbTok := d, hostTok := h }, ?_⟩
      simp only [mem_ways_bind, mem_ways_lazyAny, mem_ways_literal, mem_ways_stampPart]
      exact ⟨d, _, ⟨rfl, dOk⟩, (), _, rfl, h, _, ⟨rfl, hOk⟩, (), _, rfl, stamp, valid, rfl,
        by simp⟩) tokens found
  apply noDash_of_fullMatch Tokens.dbTok afterType
  · intro d rest result
    simp only [mem_ways_bind, mem_ways_lazyAny, mem_ways_literal, mem_ways_stampPart]
    rintro ⟨h, _, -, -, _, -, stamp, -, -, rfl⟩
    rfl
  · intro d rest result word tail split noNewline
    simp only [mem_ways_bind, mem_ways_lazyAny, mem_ways_literal, mem_ways_stampPart]
    rintro ⟨h, _, ⟨rfl, hOk⟩, -, _, rfl, stamp, valid, rfl, -⟩
    refine ⟨_, String.ofList (tail ++ '-' :: h.toList), _, ⟨?_, ?_⟩, (), _, rfl, stamp, valid,
      rfl, rfl⟩
    · simp
    · simp [noNewline, hOk]

theorem startReading_of_filenameTokens {tokens : Tokens}
    (found : filenameTokens base = some tokens) :
    ∃ (start : List Char) (stamp : Stamp) (read : Tokens), stamp.Valid ∧
      base.toList = start ++ '-' :: stamp.render ∧ '\n' ∉ start ∧ StartReading start read ∧
      tokens = stamp.captures read := by
  have reading := reading_of_filenameTokens found
  unfold filenameTokens at found
  cases ip : fullMatch backupReIP base with
  | some read =>
    rw [ip, Option.some_or, Option.some.injEq] at found
    rw [found] at ip
    have noDash := typeTok_noDash_backupReIP ip
    obtain ⟨t, d, h, stamp, valid, shape, ⟨tOk, dOk, isAddress⟩, rfl⟩ :=
      mem_ways_backupReIP.mp (mem_ways_of_fullMatch ip)
    refine ⟨_, stamp, _, valid, ?_, ?_, .address t d h rfl noDash isAddress, rfl⟩
    · simp [shape]
    · simp [tOk, dOk, isAddress.noNewline]
  | none =>
  cases re : fullMatch backupRe base with
  | some read =>
    rw [ip, re, Option.none_or, Option.some_or, Option.some.injEq] at found
    rw [found] at re
    have typeNoDash := typeTok_noDash_backupRe re
    have dbNoDash := dbTok_noDash_backupRe re
    obtain ⟨t, d, h, stamp, valid, shape, ⟨tOk, dOk, hOk⟩, rfl⟩ :=
      mem_ways_backupRe.mp (mem_ways_of_fullMatch re)
    have wholeShape : base.toList =
        (t.toList ++ '-' :: (d.toList ++ '-' :: h.toList)) ++ '-' :: stamp.render := by
      simp [shape]
    have noNewline : '\n' ∉ t.toList ++ '-' :: (d.toList ++ '-' :: h.toList) := by
      simp [tOk, dOk, hOk]
    refine ⟨_, stamp, _, valid, wholeShape, noNewline,
      .withHost t d h rfl ⟨typeNoDash, dbNoDash⟩ ?_, rfl⟩
    -- an address at the end would have been taken by the pattern before
    rintro ⟨t', d', h', same, isAddress⟩
    rw [same] at wholeShape noNewline
    apply fullMatch_eq_none_iff.mp ip _ (mem_ways_backupReIP.mpr ⟨t', d', h', stamp, valid,
      by simp [wholeShape], ?_, rfl⟩)
    simp only [List.mem_append, List.mem_cons, not_or] at noNewline
    exact ⟨noNewline.1, noNewline.2.2.1, isAddress⟩
  | none =>
    cases reading with
    | withHost t d h stamp valid shape noNewline noDash =>
      exact absurd (mem_ways_backupRe.mpr ⟨t, d, h, stamp, valid, shape, noNewline, rfl⟩)
        (fullMatch_eq_none_iff.mp re _)
    | noHost t d stamp valid shape noNewline noDash =>
      refine ⟨_, stamp, _, valid, ?_, ?_, .noHost t d rfl noDash, rfl⟩
      · simp [shape]
      · simp [noNewline.1, noNewline.2]
    | typeOnly t stamp valid shape noNewline noDash =>
      exact ⟨_, stamp, _, valid, shape, noNewline, .typeOnly t rfl noDash, rfl⟩

variable {stamp : Stamp}

theorem filenameTokens_isSome
    (valid : stamp.Valid) (shape : base.toList = start ++ '-' :: stamp.render)
    (noNewline : '\n' ∉ start) (reading : StartReading start read) :
    filenameTokens base ≠ none := by
  intro unread
  obtain ⟨-, noThree, noTwo, noOne⟩ := filenameTokens_eq_none unread
  rcases reading.shape.2 with three | ⟨two, -, -⟩ | ⟨one, -, -⟩
  · rw [three] at shape noNewline
    simp only [List.mem_append, List.mem_cons, not_or] at noNewline
    exact fullMatch_eq_none_iff.mp noThree _ (mem_ways_backupRe.mpr ⟨_, _, _, stamp, valid,
      by simpa using shape, ⟨noNewline.1, noNewline.2.2.1, noNewline.2.2.2.2⟩, rfl⟩)
  · rw [two] at shape noNewline
    simp only [List.mem_append, List.mem_cons, not_or] at noNewline
    exact fullMatch_eq_none_iff.mp noTwo _ (mem_ways_backupReNoHost.mpr ⟨_, _, stamp, valid,
      by simpa using shape, ⟨noNewline.1, noNewline.2.2⟩, rfl⟩)
  · rw [one] at shape noNewline
    exact fullMatch_eq_none_iff.mp noOne _
      (mem_ways_backupReTypeOnly.mpr ⟨_, stamp, valid, shape, noNewline, rfl⟩)

/-- What is read before the stamp does not depend on the stamp. -/
theorem filenameTokens_of_startReading
    (valid : stamp.Valid) (shape : base.toList = start ++ '-' :: stamp.render)
    (noNewline : '\n' ∉ start) (reading : StartReading start read) :
    filenameTokens base = some (stamp.captures read) := by
  cases found : filenameTokens base with
  | none => exact absurd found (filenameTokens_isSome valid shape noNewline reading)
  | some tokens =>
    obtain ⟨otherStart, other, otherRead, otherValid, otherShape, -, otherReading, rfl⟩ :=
      startReading_of_filenameTokens found
    obtain ⟨rfl, rfl⟩ := Stamp.unique valid otherValid (shape.symm.trans otherShape)
    rw [reading.functional otherReading]

/-! ### Renaming -/

/-- What is read from the two names differs in the path at most. -/
def SameMeaning (name other : String) : Prop :=
  ∃ info otherInfo, parseBackupFilename name = .ok info ∧
    parseBackupFilename other = .ok otherInfo ∧ { otherInfo with path := info.path } = info

def KeepsMeaning (name : String) (taken : Finset String) : Prop :=
  uniqueBackupName name (· ∈ taken) ∉ taken ∧
    SameMeaning name (uniqueBackupName name (· ∈ taken))

/-- The first dot of the name is in a folder and not its first character, or it
starts the ending of a stamp that has no suffix yet. -/
inductive Renamable (name : String) : Prop where
  | inFolder (folder last : List Char) (shape : name.toList = folder ++ '/' :: last)
      (named : ∃ c ∈ last, c ≠ '/') (dotted : '.' ∈ folder)
      (visible : name.toList.head? ≠ some '.')
  | atEnding (start slashes : List Char) (stamp : Stamp) (valid : stamp.Valid)
      (shape : name.toList = start ++ '-' :: stamp.render ++ slashes)
      (allSlashes : ∀ c ∈ slashes, c = '/') (noDot : '.' ∉ start)
      (unsuffixed : stamp.suffix = none)

variable {path : String}

theorem isBackupFile_iff :
    isBackupFile path = true ↔ ∃ info, parseBackupFilename path = .ok info := by
  unfold isBackupFile
  cases parseBackupFilename path with
  | error err => simp [Except.isOk, Except.toBool]
  | ok info => simp [Except.isOk, Except.toBool]

theorem sameMeaning_of_filenameTokens {name other : String} (accepted : isBackupFile name = true)
    (same : filenameTokens (filepathBase other) = filenameTokens (filepathBase name)) :
    SameMeaning name other := by
  obtain ⟨info, read⟩ := isBackupFile_iff.mp accepted
  obtain ⟨tokens, timestamp, found, parsed, rfl⟩ := parseBackupFilename_eq_ok_iff.mp read
  refine ⟨_, _, read,
    parseBackupFilename_eq_ok_iff.mpr ⟨tokens, timestamp, same.trans found, parsed, rfl⟩, rfl⟩

theorem SameMeaning.isBackupFile {name other : String} (same : SameMeaning name other) :
    isBackupFile other = true := by
  obtain ⟨-, otherInfo, -, read, -⟩ := same
  exact isBackupFile_iff.mpr ⟨otherInfo, read⟩

theorem toString_toList_injective {n m : Nat} (same : (toString n).toList = (toString m).toList) :
    n = m := by
  rw [toString_toList, toString_toList] at same
  rw [← digitsValue_toDigits n, same, digitsValue_toDigits]

theorem uniqueBackupName_cases (name : String) (taken : Finset String) :
    uniqueBackupName name (· ∈ taken) = name ∨
      ∃ n, uniqueBackupName name (· ∈ taken) = renamed name n := by
  unfold uniqueBackupName
  split
  · split
    · exact .inr ⟨_, rfl⟩
    · exact .inl rfl
  · exact .inl rfl

variable {name : String} {taken : Finset String}

/-- Of 998 different candidates one is free, if fewer than 900 names are taken. -/
theorem exists_free_renamed (few : taken.card < 900)
    (apart : ∀ n m, renamed name n = renamed name m → n = m) :
    ∃ n ∈ List.range' 2 998, renamed name n ∉ taken := by
  have count : ((List.range' 2 998).toFinset.image (renamed name)).card = 998 := by
    rw [Finset.card_image_of_injective _ (fun n m => apart n m),
      List.toFinset_card_of_nodup (List.nodup_range' ..), List.length_range']
  obtain ⟨candidate, isCandidate, free⟩ := Finset.exists_mem_notMem_of_card_lt_card
    (show taken.card < ((List.range' 2 998).toFinset.image (renamed name)).card by omega)
  obtain ⟨n, inRange, rfl⟩ := Finset.mem_image.mp isCandidate
  exact ⟨n, List.mem_toFinset.mp inRange, free⟩

theorem keepsMeaning_of_renamed (few : taken.card < 900)
    (isTaken : name ∈ taken) (apart : ∀ n m, renamed name n = renamed name m → n = m)
    (same : ∀ n, SameMeaning name (renamed name n)) : KeepsMeaning name taken := by
  obtain ⟨n, inRange, free⟩ := exists_free_renamed few apart
  unfold KeepsMeaning uniqueBackupName
  rw [if_pos (by simpa using isTaken)]
  cases search : (List.range' 2 998).find? fun n =>
      isBackupFile (renamed name n) && !decide (renamed name n ∈ taken) with
  | none =>
    have refused := List.find?_eq_none.mp search n inRange
    simp [(same n).isBackupFile, free] at refused
  | some m =>
    have accepted := List.find?_some search
    rw [Bool.and_eq_true] at accepted
    exact ⟨by simpa using accepted.2, same m⟩

theorem not_keepsMeaning (isTaken : name ∈ taken)
    (bad : ∀ n, renamed name n = name ∨ ¬ SameMeaning name (renamed name n)) :
    ¬ KeepsMeaning name taken := by
  rintro ⟨free, same⟩
  rcases uniqueBackupName_cases name taken with kept | ⟨n, isRenamed⟩
  · rw [kept] at free
    exact free isTaken
  · rw [isRenamed] at free same
    rcases bad n with unchanged | different
    · rw [unchanged] at free
      exact free isTaken
    · exact different same

theorem renamed_apart {before after : List Char}
    (shape : name.toList = before ++ '.' :: after) (noDot : '.' ∉ before) (notFirst : before ≠ [])
    (n m : Nat) (same : renamed name n = renamed name m) : n = m := by
  have chars := congrArg String.toList same
  rw [renamed_toList n shape noDot notFirst, renamed_toList m shape noDot notFirst] at chars
  have numbers := List.append_cancel_left chars
  rw [List.cons.injEq] at numbers
  exact toString_toList_injective (List.append_cancel_right numbers.2)

/-! ### Names that can be renamed -/

theorem sameMeaning_inFolder {before between last : List Char} (accepted : isBackupFile name = true)
    (shape : name.toList = before ++ '.' :: (between ++ '/' :: last))
    (named : ∃ c ∈ last, c ≠ '/') (noDot : '.' ∉ before) (notFirst : before ≠ []) (n : Nat) :
    SameMeaning name (renamed name n) := by
  have isName : name = String.ofList (before ++ '.' :: between) ++ "/" ++ String.ofList last := by
    apply String.toList_injective
    simp [shape]
  have isRenamed : renamed name n = String.ofList (before ++ '-' :: ((toString n).toList ++
      '.' :: between)) ++ "/" ++ String.ofList last := by
    apply String.toList_injective
    rw [renamed_toList n shape noDot notFirst]
    simp
  have lastNamed : ∃ c ∈ (String.ofList last).toList, c ≠ '/' := by simpa using named
  apply sameMeaning_of_filenameTokens accepted
  rw [isRenamed, isName, filepathBase_append _ lastNamed, filepathBase_append _ lastNamed]

theorem exists_folder (start : List Char) : ∃ folder rest, start = folder ++ rest ∧ '/' ∉ rest ∧
      (folder = [] ∨ folder.getLast? = some '/') := by
  by_cases slash : '/' ∈ start
  · obtain ⟨word, before, reversed, noSlash⟩ := exists_first_sep (List.mem_reverse.mpr slash)
    refine ⟨before.reverse ++ ['/'], word.reverse, ?_, by simpa using noSlash, .inr (by simp)⟩
    rw [← List.reverse_reverse start, reversed]
    simp
  · exact ⟨[], start, by simp, slash, .inl rfl⟩

theorem filepathBase_stamp {folder start slashes : List Char} (valid : stamp.Valid)
    (shape : path.toList = folder ++ (start ++ '-' :: stamp.render) ++ slashes)
    (noSlash : '/' ∉ start) (isFolder : folder = [] ∨ folder.getLast? = some '/')
    (allSlashes : ∀ c ∈ slashes, c = '/') :
    (filepathBase path).toList = start ++ '-' :: stamp.render :=
  filepathBase_of_parts shape (by simp [noSlash, valid.render_noSlash]) (by simp) isFolder
    allSlashes

def Stamp.numbered (stamp : Stamp) (n : Nat) : Stamp :=
  { stamp with suffix := some (toString n) }

theorem Stamp.Valid.numbered (valid : stamp.Valid) (n : Nat) : (stamp.numbered n).Valid := by
  refine { valid with suffix := ?_ }
  intro word isWord
  have isNumber : word = toString n := (Option.some.inj isWord).symm
  rw [isNumber]
  refine ⟨?_, toString_isDigit n⟩
  rw [toString_toList]
  exact Nat.toDigits_ne_nil

/-- The text of a stamp before its ending. -/
def Stamp.front (stamp : Stamp) : List Char :=
  stamp.strat.toList ++ '-' :: (stamp.date.toList ++ '-' :: (stamp.time.toList ++
    optionalPart '-' stamp.suffix))

theorem Stamp.render_eq_front (stamp : Stamp) : stamp.render = stamp.front ++ stamp.ending := by
  simp [Stamp.render, Stamp.front]

theorem Stamp.Valid.front_noDot (valid : stamp.Valid) : '.' ∉ stamp.front := by
  have dot : '.'.isDigit = false := by decide
  have stratNoDot : ∀ word ∈ ["full", "incr", "diff"], '.' ∉ word.toList := by decide
  have suffixNoDot : '.' ∉ optionalPart '-' stamp.suffix := by
    cases suffix : stamp.suffix with
    | none => simp [optionalPart]
    | some n => simp [optionalPart, not_mem_of_digits dot (valid.suffix n suffix).2]
  simp [Stamp.front, stratNoDot _ valid.strat, not_mem_of_digits dot valid.dateDigits,
    not_mem_of_digits dot valid.timeDigits, suffixNoDot]

/-- Renaming puts the number between the front of the stamp and its ending, if
there is no dot before. -/
theorem renamed_atEnding {start rest : List Char}
    (valid : stamp.Valid) (shape : name.toList = start ++ '-' :: stamp.render ++ rest)
    (noDot : '.' ∉ start) (n : Nat) :
    (renamed name n).toList =
      start ++ '-' :: (stamp.front ++ '-' :: ((toString n).toList ++ stamp.ending)) ++ rest := by
  have split : name.toList = (start ++ '-' :: stamp.front) ++ '.' :: (stamp.ending.tail ++ rest) := by
    rw [shape, stamp.render_eq_front]
    simp [Stamp.ending]
  rw [renamed_toList n split (by simp [noDot, valid.front_noDot]) (by simp)]
  simp [Stamp.ending]

theorem sameMeaning_atEnding {start slashes : List Char}
    (accepted : isBackupFile name = true) (valid : stamp.Valid)
    (shape : name.toList = start ++ '-' :: stamp.render ++ slashes)
    (allSlashes : ∀ c ∈ slashes, c = '/') (noDot : '.' ∉ start) (unsuffixed : stamp.suffix = none)
    (n : Nat) : SameMeaning name (renamed name n) := by
  have numbered : (renamed name n).toList =
      start ++ '-' :: (stamp.numbered n).render ++ slashes := by
    rw [renamed_atEnding valid shape noDot n]
    simp [Stamp.render, Stamp.front, Stamp.numbered, Stamp.ending, unsuffixed, optionalPart]
  obtain ⟨folder, last, rfl, noSlash, isFolder⟩ := exists_folder start
  have base := filepathBase_stamp valid (by simpa using shape) noSlash isFolder allSlashes
  have renamedBase := filepathBase_stamp (valid.numbered n) (by simpa using numbered) noSlash
    isFolder allSlashes
  obtain ⟨info, read⟩ := isBackupFile_iff.mp accepted
  obtain ⟨tokens, timestamp, found, -, -⟩ := parseBackupFilename_eq_ok_iff.mp read
  obtain ⟨other, otherStamp, tokensRead, otherValid, otherShape, noNewline, reading, isTokens⟩ :=
    startReading_of_filenameTokens found
  obtain ⟨sameStart, sameStamp⟩ := Stamp.unique otherValid valid (otherShape.symm.trans base)
  rw [sameStart] at noNewline reading
  apply sameMeaning_of_filenameTokens accepted
  rw [filenameTokens_of_startReading (valid.numbered n) renamedBase noNewline reading,
    filenameTokens_of_startReading valid base noNewline reading]
  rfl

theorem keepsMeaning_of_renamable
    (accepted : isBackupFile name = true) (few : taken.card < 900) (isTaken : name ∈ taken)
    (renamable : Renamable name) : KeepsMeaning name taken := by
  cases renamable with
  | inFolder folder last shape named dotted visible =>
    obtain ⟨before, between, rfl, noDot⟩ := exists_first_sep dotted
    have dotShape : name.toList = before ++ '.' :: (between ++ '/' :: last) := by
      simp [shape]
    have notFirst : before ≠ [] := by
      rintro rfl
      exact visible (by simp [dotShape])
    exact keepsMeaning_of_renamed few isTaken (renamed_apart dotShape noDot notFirst)
      (sameMeaning_inFolder accepted dotShape named noDot notFirst)
  | atEnding start slashes stamp valid shape allSlashes noDot unsuffixed =>
    have dotShape : name.toList = (start ++ '-' :: stamp.front) ++
        '.' :: (stamp.ending.tail ++ slashes) := by
      rw [shape, stamp.render_eq_front]
      simp [Stamp.ending]
    exact keepsMeaning_of_renamed few isTaken
      (renamed_apart dotShape (by simp [noDot, valid.front_noDot]) (by simp))
      (sameMeaning_atEnding accepted valid shape allSlashes noDot unsuffixed)

/-! ### Names that cannot be renamed -/

theorem Stamp.Valid.strat_length (valid : stamp.Valid) : stamp.strat.toList.length = 4 := by
  have all : ∀ word ∈ ["full", "incr", "diff"], word.toList.length = 4 := by decide
  exact all _ valid.strat

/-- No pattern reads a second number after the suffix of a stamp. -/
theorem not_isBackupFile_renamed_suffixed
    {m : String} (valid : stamp.Valid) (suffixed : stamp.suffix = some m) (n : Nat)
    (base : (filepathBase path).toList =
      start ++ '-' :: (stamp.front ++ '-' :: ((toString n).toList ++ stamp.ending))) :
    isBackupFile path = false := by
  by_contra accepted
  rw [Bool.not_eq_false] at accepted
  obtain ⟨info, read⟩ := isBackupFile_iff.mp accepted
  obtain ⟨tokens, timestamp, found, -, -⟩ := parseBackupFilename_eq_ok_iff.mp read
  obtain ⟨other, otherStamp, -, otherValid, otherShape, -, -, -⟩ :=
    startReading_of_filenameTokens found
  have isDash : '-'.isDigit = false := by decide
  have lastNoDash : '-' ∉ (toString n).toList ++ stamp.ending := by
    simp [not_mem_of_digits isDash (isDigit_toDigits n), valid.ending_noDash]
  have mNoDash := not_mem_of_digits isDash (valid.suffix m suffixed).2
  have timeNoDash := not_mem_of_digits isDash valid.timeDigits
  have shape : other ++ '-' :: otherStamp.render =
      (((start ++ '-' :: stamp.strat.toList ++ '-' :: stamp.date.toList) ++
        '-' :: stamp.time.toList) ++ '-' :: m.toList) ++
        '-' :: ((toString n).toList ++ stamp.ending) := by
    rw [← otherShape, base]
    simp [Stamp.front, suffixed, optionalPart]
  rw [otherStamp.render_eq other] at shape
  cases otherSuffix : otherStamp.suffix with
  | none =>
    -- the suffix stands for the date, so the time stands for the strategy
    rw [otherSuffix] at shape
    obtain ⟨before, -⟩ := append_cons_inj_right
      (by simp [not_mem_of_digits isDash otherValid.timeDigits, otherValid.ending_noDash])
      lastNoDash shape
    obtain ⟨before, -⟩ := append_cons_inj_right
      (not_mem_of_digits isDash otherValid.dateDigits) mNoDash before
    obtain ⟨-, strat⟩ := append_cons_inj_right otherValid.strat_noDash timeNoDash before
    have lengths := congrArg List.length strat
    rw [otherValid.strat_length, valid.timeLength] at lengths
    omega
  | some k =>
    rw [otherSuffix] at shape
    have kNoDash := not_mem_of_digits isDash (otherValid.suffix k otherSuffix).2
    obtain ⟨before, -⟩ := append_cons_inj_right (by simp [kNoDash, otherValid.ending_noDash])
      lastNoDash shape
    obtain ⟨before, -⟩ := append_cons_inj_right
      (not_mem_of_digits isDash otherValid.timeDigits) mNoDash before
    obtain ⟨-, date⟩ := append_cons_inj_right
      (not_mem_of_digits isDash otherValid.dateDigits) timeNoDash before
    have lengths := congrArg List.length date
    rw [otherValid.dateLength, valid.timeLength] at lengths
    omega

/-- Starts that are read alike differ by dashes at their end. -/
theorem StartReading.comparable {start other : List Char} {read otherRead : Tokens}
    (reading : StartReading start read) (otherReading : StartReading other otherRead)
    (sameType : otherRead.typeTok = read.typeTok) (sameDb : otherRead.dbTok = read.dbTok)
    (sameHost : otherRead.hostTok = read.hostTok) : start <+: other ∨ other <+: start := by
  have shape := reading.shape.2
  have otherShape := otherReading.shape.2
  rw [sameType, sameDb, sameHost] at otherShape
  rcases shape with three | ⟨two, noHost, -⟩ | ⟨one, noDb, noHost⟩
  · rcases otherShape with three' | ⟨two', noHost', -⟩ | ⟨one', noDb', noHost'⟩
    · exact .inl (by rw [three, three'])
    · exact .inr (by rw [three, two', noHost']; exact ⟨['-'], by simp⟩)
    · exact .inr (by rw [three, one']; exact List.prefix_append _ _)
  · rcases otherShape with three' | ⟨two', -, -⟩ | ⟨one', -, -⟩
    · exact .inl (by rw [three', two, noHost]; exact ⟨['-'], by simp⟩)
    · exact .inl (by rw [two, two'])
    · exact .inr (by rw [two, one']; exact List.prefix_append _ _)
  · rcases otherShape with three' | ⟨two', -, -⟩ | ⟨one', -, -⟩
    · exact .inl (by rw [one, three']; exact List.prefix_append _ _)
    · exact .inl (by rw [one, two']; exact List.prefix_append _ _)
    · exact .inl (by rw [one, one'])

theorem SameMeaning.sameTokens {name other : String} (same : SameMeaning name other) :
    ∃ tokens otherTokens, filenameTokens (filepathBase name) = some tokens ∧
      filenameTokens (filepathBase other) = some otherTokens ∧
      otherTokens.typeTok = tokens.typeTok ∧ otherTokens.dbTok = tokens.dbTok ∧
      otherTokens.hostTok = tokens.hostTok := by
  obtain ⟨info, otherInfo, read, otherRead, agree⟩ := same
  obtain ⟨tokens, _, found, _, rfl⟩ := parseBackupFilename_eq_ok_iff.mp read
  obtain ⟨otherTokens, _, otherFound, _, rfl⟩ := parseBackupFilename_eq_ok_iff.mp otherRead
  rw [BackupInfo.mk.injEq] at agree
  exact ⟨tokens, otherTokens, found, otherFound, agree.1, agree.2.1, agree.2.2.1⟩

/-- A number put into the start of a name changes what is read from it. -/
theorem not_sameMeaning_inStart {name other : String} {before after : List Char}
    (valid : stamp.Valid)
    (base : (filepathBase name).toList = (before ++ '.' :: after) ++ '-' :: stamp.render) (n : Nat)
    (otherBase : (filepathBase other).toList =
      (before ++ '-' :: ((toString n).toList ++ '.' :: after)) ++ '-' :: stamp.render) :
    ¬ SameMeaning name other := by
  intro same
  obtain ⟨tokens, otherTokens, found, otherFound, sameType, sameDb, sameHost⟩ := same.sameTokens
  obtain ⟨start, readStamp, read, readValid, shape, -, reading, rfl⟩ :=
    startReading_of_filenameTokens found
  obtain ⟨otherStart, otherStamp, otherRead, otherValid, otherShape, -, otherReading, rfl⟩ :=
    startReading_of_filenameTokens otherFound
  obtain ⟨isStart, -⟩ := Stamp.unique readValid valid (shape.symm.trans base)
  obtain ⟨isOther, -⟩ := Stamp.unique otherValid valid (otherShape.symm.trans otherBase)
  rw [isStart] at reading
  rw [isOther] at otherReading
  rcases reading.comparable otherReading sameType sameDb sameHost with ⟨rest, same⟩ | ⟨rest, same⟩
  · rw [List.append_assoc] at same
    have heads := List.append_cancel_left same
    simp at heads
  · rw [List.append_assoc] at same
    have heads := List.append_cancel_left same
    simp at heads

theorem not_keepsMeaning_of_not_renamable
    (accepted : isBackupFile name = true) (isTaken : name ∈ taken)
    (unfit : ¬ Renamable name) : ¬ KeepsMeaning name taken := by
  obtain ⟨info, read⟩ := isBackupFile_iff.mp accepted
  obtain ⟨tokens, -, found, -, -⟩ := parseBackupFilename_eq_ok_iff.mp read
  obtain ⟨start, stamp, -, valid, baseShape, -, -, -⟩ := startReading_of_filenameTokens found
  have hasDash : '-' ∈ (filepathBase name).toList := by simp [baseShape]
  obtain ⟨folder, slashes, shape, noSlash, -, isFolder, allSlashes⟩ :=
    filepathBase_parts (named_of_filepathBase hasDash (by decide) (by decide))
  rw [baseShape] at shape noSlash
  have startNoSlash : '/' ∉ start := fun member => noSlash (List.mem_append_left _ member)
  apply not_keepsMeaning isTaken
  intro n
  by_cases dotFirst : name.toList.head? = some '.'
  · exact .inl (renamed_of_dot n dotFirst)
  · right
    have noDotFolder : '.' ∉ folder := by
      intro dotted
      rcases isFolder with rfl | slash
      · simp at dotted
      · obtain ⟨front, rfl⟩ := List.getLast?_eq_some_iff.mp slash
        apply unfit
        refine .inFolder front ((start ++ '-' :: stamp.render) ++ slashes) (by simp [shape])
          ⟨'-', by simp, by decide⟩ ?_ dotFirst
        simpa using dotted
    by_cases dotted : '.' ∈ start
    · obtain ⟨before, after, rfl, noDot⟩ := exists_first_sep dotted
      have dotShape : name.toList = (folder ++ before) ++
          '.' :: (after ++ '-' :: stamp.render ++ slashes) := by
        simp [shape]
      have notFirst : folder ++ before ≠ [] := by
        intro empty
        rw [empty] at dotShape
        exact dotFirst (by simp [dotShape])
      have renamedShape : (renamed name n).toList =
          folder ++ ((before ++ '-' :: ((toString n).toList ++ '.' :: after)) ++
            '-' :: stamp.render) ++ slashes := by
        rw [renamed_toList n dotShape (by simp [noDotFolder, noDot]) notFirst]
        simp
      have newNoSlash : '/' ∉ before ++ '-' :: ((toString n).toList ++ '.' :: after) := by
        have slash : '/'.isDigit = false := by decide
        simp only [List.mem_append, List.mem_cons, not_or] at startNoSlash
        have apart : '/' ≠ '-' ∧ '/' ≠ '.' := by decide
        simp only [List.mem_append, List.mem_cons, not_or]
        exact ⟨startNoSlash.1, apart.1, not_mem_of_digits slash (toString_isDigit n), apart.2,
          startNoSlash.2.2⟩
      exact not_sameMeaning_inStart valid baseShape n
        (filepathBase_stamp valid renamedShape newNoSlash isFolder allSlashes)
    · cases suffix : stamp.suffix with
      | none =>
        exact absurd (.atEnding (folder ++ start) slashes stamp valid (by simp [shape])
          allSlashes (by simp [noDotFolder, dotted]) suffix) unfit
      | some m =>
        have wholeShape : name.toList = (folder ++ start) ++ '-' :: stamp.render ++ slashes := by
          simp [shape]
        have renamedShape := renamed_atEnding valid wholeShape
          (by simp [noDotFolder, dotted]) n
        have frontNoSlash : '/' ∉ stamp.front ∧ '/' ∉ stamp.ending := by
          have := valid.render_noSlash
          rw [stamp.render_eq_front, List.mem_append, not_or] at this
          exact this
        have numberNoSlash := not_mem_of_digits (by decide : '/'.isDigit = false)
          (isDigit_toDigits n)
        have base : (filepathBase (renamed name n)).toList =
            start ++ '-' :: (stamp.front ++ '-' :: ((toString n).toList ++ stamp.ending)) :=
          filepathBase_of_parts (by rw [renamedShape]; simp)
            (by simp [startNoSlash, frontNoSlash.1, frontNoSlash.2, numberNoSlash]) (by simp)
            isFolder allSlashes
        intro same
        have refused := not_isBackupFile_renamed_suffixed valid suffix n base
        rw [same.isBackupFile] at refused
        exact absurd refused (by simp)

theorem uniqueBackupName_keepsMeaning_iff (name : String) (taken : Finset String)
    (accepted : isBackupFile name = true) (few : taken.card < 900) :
    KeepsMeaning name taken ↔ name ∉ taken ∨ Renamable name := by
  constructor
  · intro keeps
    by_cases isTaken : name ∈ taken
    · by_contra unfit
      rw [not_or] at unfit
      exact not_keepsMeaning_of_not_renamable accepted isTaken unfit.2 keeps
    · exact .inl isTaken
  · intro fit
    by_cases isTaken : name ∈ taken
    · rcases fit with free | renamable
      · exact absurd isTaken free
      · exact keepsMeaning_of_renamable accepted few isTaken renamable
    · have kept : uniqueBackupName name (· ∈ taken) = name := by
        unfold uniqueBackupName
        rw [if_neg (by simpa using isTaken)]
      unfold KeepsMeaning
      rw [kept]
      exact ⟨isTaken, sameMeaning_of_filenameTokens accepted rfl⟩

theorem uniqueBackupName_keepsMeaning_sample :
    KeepsMeaning "mysql-app-db1-full-20240101-120000.sql"
      {"mysql-app-db1-full-20240101-120000.sql"} := by
  refine (uniqueBackupName_keepsMeaning_iff _ _ (by decide +kernel) (by decide +kernel)).mpr
    (.inr ?_)
  refine .atEnding "mysql-app-db1".toList []
    { strat := "full", date := "20240101", time := "120000", suffix := none, format := "sql",
      compress := none, enc := none } ?_ (by decide +kernel) (by simp) (by decide +kernel) rfl
  exact ⟨by decide, by decide, List.all_eq_true.mp (by decide), by decide,
    List.all_eq_true.mp (by decide), by simp, by decide, by simp, by simp⟩

/-- The number goes into the host, at its first dot. -/
theorem dotted_host_renamed :
    isBackupFile "mysql-app-db.local-full-20240101-120000.sql" = true ∧
      uniqueBackupName "mysql-app-db.local-full-20240101-120000.sql"
        (· ∈ ({"mysql-app-db.local-full-20240101-120000.sql"} : Finset String)) =
          "mysql-app-db-2.local-full-20240101-120000.sql" ∧
      ¬ KeepsMeaning "mysql-app-db.local-full-20240101-120000.sql"
        {"mysql-app-db.local-full-20240101-120000.sql"} := by
  have accepted : isBackupFile "mysql-app-db.local-full-20240101-120000.sql" = true := by
    decide +kernel
  have result : uniqueBackupName "mysql-app-db.local-full-20240101-120000.sql"
      (· ∈ ({"mysql-app-db.local-full-20240101-120000.sql"} : Finset String)) =
        "mysql-app-db-2.local-full-20240101-120000.sql" := by
    simp only [uniqueBackupName, isBackupFile, parseBackupFilename, filepathBase, filenameTokens,
      fullMatch, apply_ite String.toList, String.toList_ofList]
    decide +kernel
  have hosts : (filenameTokens (filepathBase "mysql-app-db.local-full-20240101-120000.sql")).map
        Tokens.hostTok = some "db.local" ∧
      (filenameTokens (filepathBase "mysql-app-db-2.local-full-20240101-120000.sql")).map
        Tokens.hostTok = some "db-2.local" := by
    simp only [filepathBase, filenameTokens, fullMatch, apply_ite String.toList,
      String.toList_ofList]
    repeat rw [String.toList_ofList]
    decide +kernel
  refine ⟨accepted, result, ?_⟩
  rintro ⟨-, same⟩
  rw [result] at same
  obtain ⟨tokens, otherTokens, found, otherFound, -, -, sameHost⟩ := same.sameTokens
  rw [found, otherFound, Option.map_some, Option.map_some, Option.some.injEq,
    Option.some.injEq] at hosts
  rw [hosts.1, hosts.2] at sameHost
  exact absurd sameHost (by decide)

end DbBackup.Storage
