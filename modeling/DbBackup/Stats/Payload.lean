import DbBackup.Stats.Report

/-!
Owns when a usage report is read as it was written.

Contract: exactly when the decoded payload has the jobs, the numbers and the
servers of the report (`readsBack_iff`). Every server takes two slashes in the
payload and every server that is read uses up two, so none can be spared: that
is why a version with a blank in it is always noticed.
-/

set_option linter.all false

namespace DbBackup.Stats

open DbBackup.Config (splitChar fields cut fields_eq fields_intercalate splitChar_intercalate)
open Lib.Delimited Lib.Duration Lib.GoString Lib.Scan

/-! ### Numbers -/

theorem digitLoop_eq (space n : Nat) (buf : List Char) (fits : n < 10 ^ space) :
    digitLoop space n buf = (if n = 0 then [] else Nat.toDigits 10 n) ++ buf := by
  induction space generalizing n buf with
  | zero =>
    have zero : n = 0 := by simpa using fits
    simp [digitLoop, zero]
  | succ space ih =>
    rw [digitLoop]
    by_cases positive : 0 < n
    · have shorter : n / 10 < 10 ^ space := by
        rw [Nat.pow_succ] at fits
        omega
      have notZero : ¬ n = 0 := by omega
      rw [if_pos positive, ih _ _ shorter, if_neg notZero]
      by_cases small : n < 10
      · have zero : n / 10 = 0 := by omega
        have same : n % 10 = n := by omega
        rw [if_pos zero, same, Nat.toDigits_of_lt_base small]
        rfl
      · have more : ¬ n / 10 = 0 := by omega
        have base : 10 ≤ n := by omega
        rw [if_neg more, @Nat.toDigits_of_base_le 10 n (by omega) base, List.append_assoc]
        rfl
    · rw [if_neg positive, if_pos (by omega)]
      rfl

/-- `itoa` writes a number in decimal, the smallest one apart. -/
theorem itoa_eq (n : Int64) : itoa n = if n = Int64.minValue then "-"
      else String.ofList (if n < 0 then '-' :: Nat.toDigits 10 n.toInt.natAbs
        else Nat.toDigits 10 n.toInt.natAbs) := by
  unfold itoa
  by_cases isMin : n = Int64.minValue
  · subst isMin
    decide
  · by_cases isZero : n = 0
    · subst isZero
      decide
    · have low := n.le_toInt
      have high := n.toInt_lt
      have notZero : n.toInt ≠ 0 := fun zero => isZero (Int64.toInt_inj.mp zero)
      have notMin : n.toInt ≠ -2 ^ 63 := fun same =>
        isMin (Int64.toInt_inj.mp (same.trans Int64.toInt_minValue.symm))
      have negated : (-n).toInt = -n.toInt := by
        rw [Int64.toInt_neg, Int.bmod_eq_of_le]
        · omega
        · omega
      have fits : n.toInt.natAbs < 10 ^ 20 := by omega
      rw [if_neg isZero, if_neg isMin]
      by_cases negative : n < 0
      · have below : n.toInt < 0 := Int64.lt_iff_toInt_lt.mp negative
        have magnitude : (-n).toInt.toNat = n.toInt.natAbs := by
          rw [negated]
          omega
        simp only [negative, ↓reduceIte, magnitude]
        rw [digitLoop_eq _ _ _ fits, if_neg (by omega), List.append_nil]
      · have above : ¬ n.toInt < 0 := fun below => negative (Int64.lt_iff_toInt_lt.mpr below)
        have magnitude : n.toInt.toNat = n.toInt.natAbs := by omega
        simp only [negative, ↓reduceIte, magnitude]
        rw [digitLoop_eq _ _ _ fits, if_neg (by omega), List.append_nil]

theorem atoiCode_itoa (n : Int64) :
    atoiCode (itoa n) = if n = Int64.minValue then 0 else n.toInt := by
  rw [itoa_eq]
  by_cases isMin : n = Int64.minValue
  · rw [if_pos isMin, if_pos isMin]
    decide
  · have low := n.le_toInt
    have high := n.toInt_lt
    rw [if_neg isMin, if_neg isMin]
    unfold atoiCode
    by_cases negative : n < 0
    · have below : n.toInt < 0 := Int64.lt_iff_toInt_lt.mp negative
      have allDigits : (Nat.toDigits 10 n.toInt.natAbs).all Char.isDigit = true :=
        List.all_eq_true.mpr (isDigit_toDigits _)
      have sign : splitSign ('-' :: Nat.toDigits 10 n.toInt.natAbs) =
          (true, Nat.toDigits 10 n.toInt.natAbs) := rfl
      have notHigh : ¬ maxDuration < -(n.toInt.natAbs : Int) := by
        unfold maxDuration
        omega
      have notLow : ¬ -(n.toInt.natAbs : Int) < minDuration := by
        unfold minDuration
        omega
      rw [if_pos negative]
      unfold atoi
      rw [String.toList_ofList, sign]
      simp only [signedValue, digitsValue_toDigits, allDigits, Nat.toDigits_ne_nil,
        Bool.true_eq_false, or_self, ↓reduceIte, notHigh, notLow]
      omega
    · have above : ¬ n.toInt < 0 := fun below => negative (Int64.lt_iff_toInt_lt.mpr below)
      have inRange : ((n.toInt.natAbs : Nat) : Int) ≤ maxDuration := by
        unfold maxDuration
        omega
      rw [if_neg negative, atoi_toDigits inRange]
      show ((n.toInt.natAbs : Nat) : Int) = n.toInt
      omega

theorem plain_itoa (n : Int64) : Plain (itoa n) := by
  have digits : ∀ k, (Nat.toDigits 10 k).all (fun c => !isDelimiter c) = true := by
    intro k
    rw [List.all_eq_true]
    intro c member
    exact @isDigit_all (fun c => !isDelimiter c) (by decide) c (isDigit_toDigits k c member)
  rw [itoa_eq]
  by_cases isMin : n = Int64.minValue
  · rw [if_pos isMin]
    decide
  · rw [if_neg isMin]
    unfold Plain
    rw [String.toList_ofList]
    by_cases negative : n < 0
    · rw [if_pos negative, List.all_cons, digits]
      decide
    · rw [if_neg negative, digits]

theorem milliseconds_ne (duration : Int64) : milliseconds duration ≠ Int64.minValue := by
  intro isMin
  have value := congrArg Int64.toInt isMin
  unfold milliseconds at value
  rw [Int64.toInt_div_of_ne_right _ _ (by decide)] at value
  have low := duration.le_toInt
  have high := duration.toInt_lt
  have million : (1000000 : Int64).toInt = 1000000 := by decide
  have smallest : Int64.minValue.toInt = -9223372036854775808 := by decide
  rw [million, smallest] at value
  have bound : (duration.toInt.tdiv 1000000).natAbs = duration.toInt.natAbs / 1000000 :=
    Int.natAbs_tdiv duration.toInt 1000000
  rw [value] at bound
  omega

/-! ### Tokens -/

/-- The value of a token with the key. -/
def valueOf (key token : String) : Option String :=
  match cut '=' token with
  | (found, some val) => if found = key then some val else none
  | _ => none

/-- The value of the last token with the key. -/
def lastValue (key : String) (tokens : List String) : Option String :=
  tokens.foldl (fun found token => (valueOf key token).or found) none

theorem lastValue_foldl (key : String) (tokens : List String) (start : Option String) :
    tokens.foldl (fun found token => (valueOf key token).or found) start =
      (lastValue key tokens).or start := by
  induction tokens generalizing start with
  | nil => rfl
  | cons token rest ih =>
    unfold lastValue
    rw [List.foldl_cons, List.foldl_cons, ih, ih,
      Option.or_none, Option.or_assoc]

theorem lastValue_append (key : String) (first second : List String) :
    lastValue key (first ++ second) = (lastValue key second).or (lastValue key first) := by
  unfold lastValue
  rw [List.foldl_append, lastValue_foldl]
  rfl

theorem lastValue_cons (key token : String) (rest : List String) :
    lastValue key (token :: rest) = (lastValue key rest).or (valueOf key token) := by
  have split := lastValue_append key [token] rest
  rw [List.singleton_append] at split
  rw [split]
  simp [lastValue]

/-- A value that is read is that of a token. -/
theorem mem_of_lastValue {key val : String} {tokens : List String}
    (found : lastValue key tokens = some val) : ∃ token ∈ tokens, valueOf key token = some val := by
  induction tokens with
  | nil => cases found
  | cons token rest ih =>
    rw [lastValue_cons, Option.or_eq_some_iff] at found
    rcases found with later | ⟨-, here⟩
    · obtain ⟨other, member, isValue⟩ := ih later
      exact ⟨other, List.mem_cons_of_mem _ member, isValue⟩
    · exact ⟨token, List.mem_cons_self, here⟩

theorem lastValue_isSome {key token : String} {tokens : List String} (member : token ∈ tokens)
    (has : (valueOf key token).isSome = true) : (lastValue key tokens).isSome = true := by
  induction tokens with
  | nil => cases member
  | cons head rest ih =>
    rw [lastValue_cons, Option.isSome_or]
    rcases List.mem_cons.mp member with rfl | later
    · rw [has, Bool.or_true]
    · rw [ih later, Bool.true_or]

/-! ### What the tokens set -/

variable (reading : Reading)

theorem field_jobs (key val : String) : (reading.field key val).decoded.jobs =
      if key = "j" then decodeJobs val else reading.decoded.jobs := by
  by_cases isKey : key = "j"
  · subst isKey
    rfl
  · rw [if_neg isKey]
    unfold Reading.field
    simp only [apply_ite Reading.decoded, apply_ite Decoded.jobs, isKey, if_false, ite_self]

theorem field_jobCount (key val : String) : (reading.field key val).decoded.jobCount =
      if key = "n" then atoiCode val else reading.decoded.jobCount := by
  by_cases isKey : key = "n"
  · subst isKey
    rfl
  · rw [if_neg isKey]
    unfold Reading.field
    simp only [apply_ite Reading.decoded, apply_ite Decoded.jobCount, isKey, if_false, ite_self]

theorem field_seenSchema (key val : String) :
    (reading.field key val).seenSchema = (decide (key = "sv") || reading.seenSchema) := by
  by_cases isKey : key = "sv"
  · subst isKey
    rfl
  · rw [decide_eq_false isKey, Bool.false_or]
    unfold Reading.field
    simp only [apply_ite Reading.seenSchema, isKey, if_false, ite_self]

theorem field_seenTool (key val : String) :
    (reading.field key val).seenTool = (decide (key = "t") || reading.seenTool) := by
  by_cases isKey : key = "t"
  · subst isKey
    rfl
  · rw [decide_eq_false isKey, Bool.false_or]
    unfold Reading.field
    simp only [apply_ite Reading.seenTool, isKey, if_false, ite_self]

theorem tokens_reading (tokens : List String) (reading : Reading) :
    (tokens.foldl Reading.token reading).decoded.jobs =
        ((lastValue "j" tokens).map decodeJobs).getD reading.decoded.jobs ∧
      (tokens.foldl Reading.token reading).decoded.jobCount =
        ((lastValue "n" tokens).map atoiCode).getD reading.decoded.jobCount ∧
      (tokens.foldl Reading.token reading).seenSchema =
        ((lastValue "sv" tokens).isSome || reading.seenSchema) ∧
      (tokens.foldl Reading.token reading).seenTool =
        ((lastValue "t" tokens).isSome || reading.seenTool) := by
  induction tokens generalizing reading with
  | nil => simp [lastValue]
  | cons token rest ih =>
    obtain ⟨jobs, jobCount, seenSchema, seenTool⟩ := ih (reading.token token)
    rw [List.foldl_cons, jobs, jobCount, seenSchema, seenTool, lastValue_cons, lastValue_cons,
      lastValue_cons, lastValue_cons]
    unfold Reading.token valueOf
    cases cutToken : cut '=' token with
    | mk key after =>
      cases after with
      | none => simp
      | some val =>
        simp only [field_jobs, field_jobCount, field_seenSchema, field_seenTool]
        refine ⟨?_, ?_, ?_, ?_⟩
        · cases lastValue "j" rest <;> split_ifs <;> simp_all
        · cases lastValue "n" rest <;> split_ifs <;> simp_all
        · cases lastValue "sv" rest <;> split_ifs <;> simp_all
        · cases lastValue "t" rest <;> split_ifs <;> simp_all

/-! ### Words of the payload -/

/-- The text up to its first blank. -/
def firstWord (text : String) : String := String.ofList (text.toList.takeWhile fun c => !isSpace c)

/-- The words of a text after its first blank: the reader takes them for tokens
of their own. -/
def stray (text : String) : List String :=
  (words isSpace (text.toList.dropWhile fun c => !isSpace c)).map String.ofList

variable {text : String}

theorem stray_of_noBlank (noBlank : ∀ c ∈ text.toList, isSpace c = false) :
    stray text = [] ∧ firstWord text = text := by
  have solid : ∀ c ∈ text.toList, (!isSpace c) = true := fun c member => by simp [noBlank c member]
  unfold stray firstWord
  rw [List.dropWhile_eq_nil_iff.mpr solid, List.takeWhile_eq_self_iff.mpr solid,
    String.ofList_toList]
  exact ⟨rfl, rfl⟩

theorem Plain.noBlank (isPlain : Plain text) : ∀ c ∈ text.toList, isSpace c = false := by
  intro c member
  have notDelimiter := List.all_eq_true.mp isPlain c member
  simp only [isDelimiter, Bool.not_eq_true', Bool.or_eq_false_iff] at notDelimiter
  exact notDelimiter.1.1.1.1

theorem stray_plain (isPlain : Plain text) : stray text = [] :=
  (stray_of_noBlank isPlain.noBlank).1

theorem cut_keyed {start : String} {k : Char} (shape : start.toList = [k, '=']) (isKey : k ≠ '=')
    (text : String) : cut '=' (start ++ text) = (String.ofList [k], some text) := by
  unfold cut
  rw [String.toList_append, shape]
  simp [isKey]

theorem lastValue_token {key start : String} {k : Char} (shape : start.toList = [k, '='])
    (isKey : k ≠ '=' ∧ isSpace k = false) (text : String) :
    lastValue key (fields (start ++ text)) =
      (lastValue key (stray text)).or
        (if String.ofList [k] = key then some (firstWord text) else none) := by
  have equals : isSpace '=' = false := by decide
  have taken : (start ++ text).toList.takeWhile (fun c => !isSpace c) =
      k :: '=' :: text.toList.takeWhile fun c => !isSpace c := by
    rw [String.toList_append, shape]
    simp [isKey.2, equals]
  have dropped : (start ++ text).toList.dropWhile (fun c => !isSpace c) =
      text.toList.dropWhile fun c => !isSpace c := by
    rw [String.toList_append, shape]
    simp [isKey.2, equals]
  have token : String.ofList (k :: '=' :: text.toList.takeWhile fun c => !isSpace c) =
      start ++ firstWord text := by
    apply String.toList_injective
    rw [String.toList_append, shape, firstWord, String.toList_ofList, String.toList_ofList]
    rfl
  have value : valueOf key (start ++ firstWord text) =
      if String.ofList [k] = key then some (firstWord text) else none := by
    unfold valueOf
    rw [cut_keyed shape isKey.1]
  rw [fields_eq, words_eq_cons (by rw [taken]; exact List.cons_ne_nil _ _), taken, dropped,
    List.map_cons, token, lastValue_cons, value]
  rfl

/-- A token with another key counts for its stray words. -/
theorem lastValue_other {key start : String} {k : Char} (shape : start.toList = [k, '='])
    (isKey : k ≠ '=' ∧ isSpace k = false) (different : String.ofList [k] ≠ key) (text : String) :
    lastValue key (fields (start ++ text)) = lastValue key (stray text) := by
  rw [lastValue_token shape isKey, if_neg different, Option.or_none]

theorem lastValue_plain {key start : String} {k : Char} (shape : start.toList = [k, '='])
    (isKey : k ≠ '=' ∧ isSpace k = false) (different : String.ofList [k] ≠ key)
    (isPlain : Plain text) : lastValue key (fields (start ++ text)) = none := by
  rw [lastValue_other shape isKey different, stray_plain isPlain]
  rfl

theorem lastValue_optional {key start : String} {k : Char} (shape : start.toList = [k, '='])
    (isKey : k ≠ '=' ∧ isSpace k = false) (different : String.ofList [k] ≠ key) (text : String) :
    lastValue key ((optional start text).flatMap fields) = lastValue key (stray text) := by
  unfold optional
  by_cases empty : text = ""
  · rw [if_neg (not_not_intro empty), empty]
    rfl
  · rw [if_pos empty, List.flatMap_singleton, lastValue_other shape isKey different]

/-! ### The tokens of a report -/

/-- The texts that stand in the payload as they are, in their order. -/
def ReportBuilder.rawTexts (b : ReportBuilder) : List String :=
  [b.instanceID, b.version, b.reported, b.prevVers, b.licenseID, b.channel, b.gitCommit, b.ops] ++
    if b.container then [b.imageVersion] else []

theorem plain_append {first second : String} (firstPlain : Plain first) (secondPlain : Plain second) :
    Plain (first ++ second) := by
  unfold Plain at *
  rw [String.toList_append, List.all_append, firstPlain, secondPlain]
  rfl

theorem plain_flag (on : Bool) : Plain (flag on) := by
  cases on <;> decide

theorem plain_runtimeCode (b : ReportBuilder) : Plain b.runtimeCode := by
  unfold ReportBuilder.runtimeCode
  refine plain_append (plain_append (plain_append ?_ ?_) (plain_flag _)) (plain_flag _)
  · split_ifs <;> decide
  · split_ifs <;> decide

theorem plain_logCode (b : ReportBuilder) : Plain b.logCode := by
  unfold ReportBuilder.logCode
  refine plain_append (plain_append ?_ ?_) ?_
  · split_ifs <;> decide
  · split_ifs <;> decide
  · split_ifs <;> decide

theorem stray_imageVersionCode (b : ReportBuilder) : stray b.imageVersionCode = stray b.imageVersion := by
  unfold ReportBuilder.imageVersionCode
  by_cases empty : b.imageVersion = ""
  · rw [empty]
    decide
  · rw [if_pos empty]

theorem lastValue_firstTokens (b : ReportBuilder) : lastValue "j" (b.firstTokens.flatMap fields) =
      lastValue "j" ([b.instanceID, b.version, b.reported, b.prevVers, b.licenseID, b.channel,
        b.gitCommit, b.ops].flatMap stray) := by
  have schema : lastValue "j" (fields ("sv=" ++ itoa 5)) = none := by decide
  have tool : lastValue "j" (fields ("t=" ++ "322")) = none := by decide
  have runtime : lastValue "j" (fields ("r=" ++ b.runtimeCode)) = none :=
    lastValue_plain rfl (by decide) (by decide) (plain_runtimeCode b)
  have uptime : lastValue "j" (fields ("u=" ++ itoa b.uptimeHours)) = none :=
    lastValue_plain rfl (by decide) (by decide) (plain_itoa _)
  have instanceID := @lastValue_other "j" "i=" 'i' rfl (by decide) (by decide) b.instanceID
  have version := @lastValue_other "j" "v=" 'v' rfl (by decide) (by decide) b.version
  have reported := @lastValue_other "j" "d=" 'd' rfl (by decide) (by decide) b.reported
  have prevVers := @lastValue_optional "j" "p=" 'p' rfl (by decide) (by decide) b.prevVers
  have licenseID := @lastValue_optional "j" "e=" 'e' rfl (by decide) (by decide) b.licenseID
  have channel := @lastValue_optional "j" "h=" 'h' rfl (by decide) (by decide) b.channel
  have gitCommit := @lastValue_optional "j" "g=" 'g' rfl (by decide) (by decide) b.gitCommit
  have ops := @lastValue_optional "j" "o=" 'o' rfl (by decide) (by decide) b.ops
  unfold ReportBuilder.firstTokens
  simp only [List.flatMap_append, List.flatMap_cons, List.flatMap_nil, List.append_nil,
    lastValue_append, schema, tool, runtime, uptime, instanceID, version, reported, prevVers,
    licenseID, channel, gitCommit, ops, Option.or_none, Option.none_or, Option.or_assoc]

/-- The value the jobs are read from. -/
theorem lastValue_jobs (b : ReportBuilder) (cfg : ReportConfig) :
    lastValue "j" ((b.tokens cfg).flatMap fields) =
      if cfg.jobs ≠ [] then
        (lastValue "j" (stray (b.jobText cfg))).or (some (firstWord (b.jobText cfg)))
      else lastValue "j" (b.rawTexts.flatMap stray) := by
  have count : lastValue "j" (fields ("n=" ++ itoa (Int64.ofNat cfg.jobs.length))) = none :=
    lastValue_plain rfl (by decide) (by decide) (plain_itoa _)
  have log : lastValue "j" (fields ("l=" ++ b.logCode)) = none :=
    lastValue_plain rfl (by decide) (by decide) (plain_logCode b)
  have image : lastValue "j" (fields ("m=" ++ b.imageVersionCode)) =
      lastValue "j" (stray b.imageVersion) := by
    rw [@lastValue_other "j" "m=" 'm' rfl (by decide) (by decide), stray_imageVersionCode]
  have jobs : lastValue "j" (fields ("j=" ++ b.jobText cfg)) =
      (lastValue "j" (stray (b.jobText cfg))).or (some (firstWord (b.jobText cfg))) := by
    rw [@lastValue_token "j" "j=" 'j' rfl (by decide), if_pos (by decide)]
  unfold ReportBuilder.tokens ReportBuilder.rawTexts
  rw [List.flatMap_append, lastValue_append]
  by_cases someJobs : cfg.jobs ≠ []
  · rw [if_pos someJobs, if_pos someJobs, List.flatMap_singleton, jobs, Option.or_assoc,
      Option.some_or]
  · have nothing : lastValue "j" [] = none := rfl
    rw [if_neg someJobs, if_neg someJobs, List.flatMap_append, lastValue_append, List.flatMap_append,
      lastValue_append, List.flatMap_append, lastValue_append, lastValue_firstTokens]
    cases b.container with
    | false =>
      simp only [Bool.false_eq_true, ↓reduceIte, List.flatMap_nil, List.flatMap_cons,
        List.append_nil, lastValue_append, count, log, nothing, Option.none_or]
    | true =>
      simp only [↓reduceIte, List.flatMap_nil, List.flatMap_cons, List.append_nil,
        lastValue_append, count, log, image, nothing, Option.none_or]

/-- The value the number of jobs is read from. -/
theorem lastValue_count (b : ReportBuilder) (cfg : ReportConfig) :
    lastValue "n" ((b.tokens cfg).flatMap fields) =
      ((if cfg.jobs ≠ [] then lastValue "n" (stray (b.jobText cfg)) else none).or
        (if b.container then lastValue "n" (stray b.imageVersion) else none)).or
          (some (itoa (Int64.ofNat cfg.jobs.length))) := by
  have count : lastValue "n" (fields ("n=" ++ itoa (Int64.ofNat cfg.jobs.length))) =
      some (itoa (Int64.ofNat cfg.jobs.length)) := by
    rw [@lastValue_token "n" "n=" 'n' rfl (by decide), stray_plain (plain_itoa _), if_pos (by decide),
      (stray_of_noBlank (plain_itoa _).noBlank).2]
    rfl
  have log : lastValue "n" (fields ("l=" ++ b.logCode)) = none :=
    lastValue_plain rfl (by decide) (by decide) (plain_logCode b)
  have image : lastValue "n" ((if b.container then ["m=" ++ b.imageVersionCode] else []).flatMap fields) =
      if b.container then lastValue "n" (stray b.imageVersion) else none := by
    split_ifs
    · rw [List.flatMap_singleton, @lastValue_other "n" "m=" 'm' rfl (by decide) (by decide),
        stray_imageVersionCode]
    · rfl
  have jobs : lastValue "n" ((if cfg.jobs ≠ [] then ["j=" ++ b.jobText cfg] else []).flatMap fields) =
      if cfg.jobs ≠ [] then lastValue "n" (stray (b.jobText cfg)) else none := by
    split_ifs
    · rw [List.flatMap_singleton, @lastValue_other "n" "j=" 'j' rfl (by decide) (by decide)]
    · rfl
  have middle : lastValue "n" ((b.firstTokens ++ ["n=" ++ itoa (Int64.ofNat cfg.jobs.length),
      "l=" ++ b.logCode]).flatMap fields) = some (itoa (Int64.ofNat cfg.jobs.length)) := by
    rw [List.flatMap_append, lastValue_append, List.flatMap_cons, List.flatMap_singleton,
      lastValue_append, count, log]
    rfl
  unfold ReportBuilder.tokens
  rw [List.flatMap_append, lastValue_append, List.flatMap_append, lastValue_append, middle, jobs,
    image, Option.or_assoc]

/-- Every report can be decoded, and this is what the jobs and their number are
read from. -/
theorem decodePayload_build (b : ReportBuilder) (cfg : ReportConfig) :
    ∃ d, decodePayload (b.build cfg) = .ok d ∧
      d.jobs = ((lastValue "j" ((b.tokens cfg).flatMap fields)).map decodeJobs).getD [] ∧
      d.jobCount = ((lastValue "n" ((b.tokens cfg).flatMap fields)).map atoiCode).getD 0 := by
  have schemaToken : "sv=5" ∈ (b.tokens cfg).flatMap fields := by
    have shape : fields ("sv=" ++ itoa 5) = ["sv=5"] := by decide
    refine List.mem_flatMap.mpr ⟨"sv=" ++ itoa 5, ?_, by rw [shape]; exact List.mem_singleton_self _⟩
    simp [ReportBuilder.tokens, ReportBuilder.firstTokens]
  have toolToken : "t=322" ∈ (b.tokens cfg).flatMap fields := by
    have shape : fields ("t=" ++ "322") = ["t=322"] := by decide
    refine List.mem_flatMap.mpr ⟨"t=" ++ "322", ?_, by rw [shape]; exact List.mem_singleton_self _⟩
    simp [ReportBuilder.tokens, ReportBuilder.firstTokens]
  have notEmpty : (b.tokens cfg).flatMap fields ≠ [] := List.ne_nil_of_mem schemaToken
  obtain ⟨jobs, jobCount, seenSchema, seenTool⟩ :=
    tokens_reading ((b.tokens cfg).flatMap fields) {}
  rw [lastValue_isSome schemaToken (by decide)] at seenSchema
  rw [lastValue_isSome toolToken (by decide)] at seenTool
  refine ⟨(((b.tokens cfg).flatMap fields).foldl Reading.token {}).decoded, ?_, jobs, jobCount⟩
  unfold decodePayload ReportBuilder.build
  simp only [fields_intercalate, notEmpty, ↓reduceIte, seenSchema, seenTool]
  rfl

/-! ### Servers -/

def Server.kind (server : Server) : DbType := (serverEngines.lookup server.engine).getD .other

/-- The words a reader shows for a server: the engine, the version and, where
it is known, the architecture. -/
def Server.shown (server : Server) : String :=
  server.kind.name ++ " " ++ server.version ++ if server.arch = "" then "" else " " ++ server.arch

theorem Server.spec (server : Server) :
    server.token = server.kind.code ++ "/" ++ server.version ++ "/" ++ archCode server.arch ∧
      server.version ≠ "" ∧ server.kind ≠ .other := by
  have kept := server.kept
  unfold Server.token Server.kind
  unfold serverToken at kept ⊢
  cases found : serverEngines.lookup server.engine with
  | none =>
    rw [found] at kept
    exact absurd rfl kept
  | some kind =>
    rw [found] at kept
    dsimp only at kept ⊢
    by_cases empty : server.version = ""
    · rw [if_pos empty] at kept
      exact absurd rfl kept
    · refine ⟨if_neg empty, empty, ?_⟩
      have listed := List.lookup_eq_some_iff.mp found
      obtain ⟨before, after, shape, -⟩ := listed
      have member : (server.engine, kind) ∈ serverEngines := by
        rw [shape]
        simp
      have known : ∀ entry ∈ serverEngines, entry.2 ≠ .other := by decide
      exact known _ member

/-- What the reader makes of the token of a server, where it finds it. -/
def Server.read (server : Server) : String :=
  decodeServerToken server.kind.code server.version (archCode server.arch)

def archSuffix (arch : String) : String := if arch = "" then "" else " " ++ arch

theorem Server.read_eq (server : Server) :
    server.read = server.kind.name ++ " " ++ server.version ++
      archSuffix (decodeArch (archCode server.arch)) := by
  unfold Server.read decodeServerToken archSuffix
  rw [(dbTypeNames_sound server.kind).1]
  split_ifs
  · rw [String.append_empty]
  · rw [String.append_assoc]

theorem archSuffix_injective {first second : String} (same : archSuffix first = archSuffix second) :
    first = second := by
  have chars := congrArg String.toList same
  unfold archSuffix at chars
  split_ifs at chars with firstEmpty secondEmpty secondEmpty
  · rw [firstEmpty, secondEmpty]
  · simp at chars
  · simp at chars
  · apply String.toList_injective
    simpa using chars

theorem decodeArch_archCode_iff (arch : String) :
    decodeArch (archCode arch) = arch ↔ arch ∉ ["0", "1", "2"] := by
  unfold archCode
  by_cases isAmd : arch = "amd64"
  · subst isAmd
    decide
  · by_cases isArm : arch = "arm64"
    · subst isArm
      decide
    · by_cases isEmpty : arch = ""
      · subst isEmpty
        decide
      · rw [if_neg isAmd, if_neg isArm, if_pos isEmpty]
        unfold decodeArch
        by_cases isOne : arch = "1"
        · subst isOne
          decide
        · by_cases isTwo : arch = "2"
          · subst isTwo
            decide
          · by_cases isZero : arch = "0"
            · subst isZero
              decide
            · simp [isOne, isTwo, isZero, isEmpty]

theorem Server.read_eq_shown_iff (server : Server) :
    server.read = server.shown ↔ server.arch ∉ ["0", "1", "2"] := by
  rw [server.read_eq, ← decodeArch_archCode_iff]
  constructor
  · intro same
    have chars := congrArg String.toList same
    unfold Server.shown at chars
    simp only [String.toList_append, List.append_cancel_left_eq] at chars
    exact archSuffix_injective (String.toList_injective chars)
  · intro same
    rw [same]
    rfl

/-! ### Cutting what was joined -/

theorem Plain.free {text : String} (isPlain : Plain text) {c : Char} (delimiter : isDelimiter c = true) :
    c ∉ text.toList := by
  intro member
  have notDelimiter := List.all_eq_true.mp isPlain c member
  simp [delimiter] at notDelimiter

/-- No delimiter in the version and in the architecture. -/
def Server.IsPlain (server : Server) : Prop := Plain server.version ∧ Plain server.arch

theorem plain_archCode {arch : String} (isPlain : Plain arch) : Plain (archCode arch) := by
  unfold archCode
  split_ifs
  · decide
  · decide
  · exact isPlain
  · decide

variable {server : Server}

theorem mem_token (isPlain : server.IsPlain) {c : Char}
    (member : c ∈ server.token.toList) : isDelimiter c = false ∨ c = '/' := by
  have plainPart : ∀ {text : String}, Plain text → c ∈ text.toList → isDelimiter c = false := by
    intro text textPlain inText
    have notDelimiter := List.all_eq_true.mp textPlain c inText
    simpa using notDelimiter
  rw [server.spec.1] at member
  simp only [String.toList_append, List.mem_append] at member
  rcases member with (((inCode | slash) | inVersion) | slash) | inArch
  · exact .inl (plainPart (dbTypeNames_sound server.kind).2 inCode)
  · exact .inr (List.mem_singleton.mp slash)
  · exact .inl (plainPart isPlain.1 inVersion)
  · exact .inr (List.mem_singleton.mp slash)
  · exact .inl (plainPart (plain_archCode isPlain.2) inArch)

theorem decodeServer_token (isPlain : server.IsPlain) :
    decodeServer server.token = some server.read := by
  have noBlank : ∀ c ∈ server.token.toList, isSpace c = false := by
    intro c member
    rcases mem_token isPlain member with notDelimiter | rfl
    · simp only [isDelimiter, Bool.or_eq_false_iff] at notDelimiter
      exact notDelimiter.1.1.1.1
    · decide
  have joined : server.token =
      "/".intercalate [server.kind.code, server.version, archCode server.arch] := by
    rw [server.spec.1]
    simp [String.intercalate_cons_cons, String.append_assoc]
  have slash : isDelimiter '/' = true := by decide
  have parts : splitChar '/' server.token =
      [server.kind.code, server.version, archCode server.arch] := by
    rw [joined, splitChar_intercalate rfl _ (by simp)]
    intro part member
    simp only [List.mem_cons, List.not_mem_nil, or_false] at member
    rcases member with rfl | rfl | rfl
    · exact (dbTypeNames_sound server.kind).2.free slash
    · exact isPlain.1.free slash
    · exact (plain_archCode isPlain.2).free slash
  unfold decodeServer
  rw [trimSpace_of_noBlank noBlank, parts]
  rfl

variable {servers : List Server}

theorem decodeServers_serverField (isPlain : ∀ server ∈ servers, server.IsPlain) :
    decodeServers (serverField servers) = servers.map Server.read := by
  by_cases empty : servers = []
  · subst empty
    decide
  · have cutField : splitChar ',' (serverField servers) = servers.map Server.token := by
      apply splitChar_intercalate rfl
      · intro token member comma
        obtain ⟨server, inServers, rfl⟩ := List.mem_map.mp member
        rcases mem_token (isPlain server inServers) comma with notDelimiter | slash
        · exact absurd notDelimiter (by decide)
        · exact absurd slash (by decide)
      · simpa using empty
    unfold decodeServers
    rw [cutField, filterMap_map_eq fun server member => decodeServer_token (isPlain server member)]

/-! ### Jobs -/

/-- A job as the report means it. -/
def ReportBuilder.reportedJob (b : ReportBuilder) (job : JobConfig) : Job where
  database := (dbType job.type).name
  strategy := job.kindStrategy.name
  compression := compressionName job.kindCompression
  encryption := encryptionName job.kindEncryption
  encryptionMode := job.kindMode.name
  storage := job.kindStorage.name
  schedule := (scheduleKind job.schedule).name
  maintenance := job.maintenance
  archive := job.archive
  successes := (b.outcome job).success.toInt
  failures := (b.outcome job).failed.toInt
  retentionTiers := tierNames job.retention
  durationMs := (milliseconds (b.outcome job).duration).toInt
  pruned := (b.outcome job).pruned.toInt
  archived := (b.outcome job).archived.toInt
  kb := (b.outcome job).kb.toInt
  rawKB := (b.outcome job).rawKB.toInt
  checksum := (Stats.checksum job.checksum).name
  compressionLevel := job.level.toInt
  servers := (b.outcome job).servers.map Server.shown

/-- The same job with its numbers and its servers as they are read. -/
def ReportBuilder.readJob (b : ReportBuilder) (job : JobConfig) : Job :=
  { b.reportedJob job with
    successes := atoiCode (itoa (b.outcome job).success)
    failures := atoiCode (itoa (b.outcome job).failed)
    pruned := atoiCode (itoa (b.outcome job).pruned)
    archived := atoiCode (itoa (b.outcome job).archived)
    kb := atoiCode (itoa (b.outcome job).kb)
    rawKB := atoiCode (itoa (b.outcome job).rawKB)
    compressionLevel := atoiCode (itoa job.level)
    servers := (b.outcome job).servers.map Server.read }

/-- The numbers of a job that reach the payload as they are. -/
def ReportBuilder.numbers (b : ReportBuilder) (job : JobConfig) : List Int64 :=
  [(b.outcome job).success, (b.outcome job).failed, (b.outcome job).pruned,
    (b.outcome job).archived, (b.outcome job).kb, (b.outcome job).rawKB, job.level]

theorem atoiCode_itoa_iff (n : Int64) : atoiCode (itoa n) = n.toInt ↔ n ≠ Int64.minValue := by
  rw [atoiCode_itoa]
  by_cases isMin : n = Int64.minValue
  · subst isMin
    decide
  · simp [isMin]

theorem readJob_eq_iff (b : ReportBuilder) (job : JobConfig) : b.readJob job = b.reportedJob job ↔
      (∀ n ∈ b.numbers job, n ≠ Int64.minValue) ∧
        ∀ server ∈ (b.outcome job).servers, server.arch ∉ ["0", "1", "2"] := by
  have servers : (b.outcome job).servers.map Server.read = (b.outcome job).servers.map Server.shown ↔
      ∀ server ∈ (b.outcome job).servers, server.arch ∉ ["0", "1", "2"] := by
    rw [List.map_inj_left]
    constructor
    · intro same server member
      exact (Server.read_eq_shown_iff server).mp (same server member)
    · intro known server member
      exact (Server.read_eq_shown_iff server).mpr (known server member)
  rw [← servers]
  unfold ReportBuilder.readJob ReportBuilder.numbers ReportBuilder.reportedJob
  simp only [Job.mk.injEq, atoiCode_itoa_iff, List.mem_cons, List.not_mem_nil, or_false,
    forall_eq_or_imp, forall_eq, true_and, and_assoc]

/-- Everything between two colons of a job, the servers included, is free of
colons, bars and blanks. -/
def Inner (c : Char) : Prop := c ≠ ':' ∧ c ≠ '|' ∧ isSpace c = false

theorem Plain.inner (isPlain : Plain text) : ∀ c ∈ text.toList, Inner c := by
  intro c member
  refine ⟨?_, ?_, isPlain.noBlank c member⟩
  · intro colon
    exact isPlain.free (c := c) (by rw [colon]; decide) member
  · intro bar
    exact isPlain.free (c := c) (by rw [bar]; decide) member

theorem inner_serverField (isPlain : ∀ server ∈ servers, server.IsPlain) :
    ∀ c ∈ (serverField servers).toList, Inner c := by
  have inToken : ∀ server ∈ servers, ∀ c ∈ server.token.toList, Inner c := by
    intro server member c inText
    rcases mem_token (isPlain server member) inText with notDelimiter | rfl
    · simp only [isDelimiter, Bool.or_eq_false_iff, decide_eq_false_iff_not] at notDelimiter
      exact ⟨notDelimiter.1.1.2, notDelimiter.1.1.1.2, notDelimiter.1.1.1.1⟩
    · exact ⟨by decide, by decide, by decide⟩
  unfold serverField
  rw [String.toList_intercalate]
  intro c member
  rcases mem_intercalate member with comma | ⟨part, inParts, inPart⟩
  · rw [comma]
    exact ⟨by decide, by decide, by decide⟩
  · obtain ⟨token, inTokens, rfl⟩ := List.mem_map.mp inParts
    obtain ⟨server, inServers, rfl⟩ := List.mem_map.mp inTokens
    exact inToken server inServers c inPart

/-- The fields before the servers. -/
def ReportBuilder.codeFields (b : ReportBuilder) (job : JobConfig) : List String :=
  (b.jobFields job).dropLast

theorem jobFields_eq (b : ReportBuilder) (job : JobConfig) :
    b.jobFields job = b.codeFields job ++ [serverField (b.outcome job).servers] := rfl

theorem plain_codeFields (b : ReportBuilder) (job : JobConfig) :
    ∀ field ∈ b.codeFields job, Plain field := by
  intro field member
  unfold ReportBuilder.codeFields ReportBuilder.jobFields at member
  simp only [List.dropLast_cons_cons, List.dropLast_singleton, List.mem_cons, List.not_mem_nil,
    or_false] at member
  rcases member with rfl | rfl | rfl | rfl | rfl | rfl | rfl | rfl | rfl | rfl | rfl | rfl | rfl |
    rfl | rfl | rfl | rfl | rfl | rfl
  · exact (dbTypeNames_sound _).2
  · exact (strategyNames_sound _).2
  · exact (compressionNames_sound _).2
  · exact (encryptionNames_sound _).2
  · exact (encryptionModeNames_sound _).2
  · exact (storageNames_sound _).2
  · exact (scheduleNames_sound _).2
  · exact plain_flag _
  · exact plain_flag _
  · exact plain_itoa _
  · exact plain_itoa _
  · exact (decodeTiers_retentionCode _).2
  · exact plain_itoa _
  · exact plain_itoa _
  · exact plain_itoa _
  · exact plain_itoa _
  · exact plain_itoa _
  · exact (checksumNames_sound _).2
  · exact plain_itoa _

variable {job : JobConfig}

theorem inner_jobFields {b : ReportBuilder}
    (isPlain : ∀ server ∈ (b.outcome job).servers, server.IsPlain) :
    ∀ field ∈ b.jobFields job, ∀ c ∈ field.toList, Inner c := by
  intro field member
  rw [jobFields_eq] at member
  rcases List.mem_append.mp member with isCode | isLast
  · exact (plain_codeFields b job field isCode).inner
  · rw [List.mem_singleton.mp isLast]
    exact inner_serverField isPlain

theorem decodeBool_flag (on : Bool) : decodeBool (flag on) = on := by
  cases on <;> decide

theorem decodeJob_encodeJob {b : ReportBuilder}
    (isPlain : ∀ server ∈ (b.outcome job).servers, server.IsPlain) :
    decodeJob (b.encodeJob job) = some (b.readJob job) := by
  have cutFields : splitChar ':' (b.encodeJob job) = b.jobFields job := by
    apply splitChar_intercalate rfl
    · intro field member colon
      exact (inner_jobFields isPlain field member ':' colon).1 rfl
    · simp [ReportBuilder.jobFields]
  have duration : atoiCode64 (itoa64 (milliseconds (b.outcome job).duration)) =
      (milliseconds (b.outcome job).duration).toInt :=
    (atoiCode_itoa_iff _).mpr (milliseconds_ne _)
  unfold decodeJob
  rw [cutFields]
  unfold ReportBuilder.jobFields
  simp only [List.length_cons, List.length_nil, laterField, List.getD_cons_zero, List.getD_cons_succ,
    List.getElem?_cons_zero, List.getElem?_cons_succ, Option.map_some, Option.getD_some, duration,
    decodeBool_flag, decodeServers_serverField isPlain, (decodeTiers_retentionCode _).1,
    (strategyNames_sound _).1, (compressionNames_sound _).1, (encryptionNames_sound _).1,
    (encryptionModeNames_sound _).1, (storageNames_sound _).1, dbTypeCode, (dbTypeNames_sound _).1,
    scheduleCode, (scheduleNames_sound _).1, checksumCode, (checksumNames_sound _).1]
  rfl

theorem mem_encodeJob {b : ReportBuilder}
    (isPlain : ∀ server ∈ (b.outcome job).servers, server.IsPlain) :
    ∀ c ∈ (b.encodeJob job).toList, c ≠ '|' ∧ isSpace c = false := by
  unfold ReportBuilder.encodeJob
  rw [String.toList_intercalate]
  intro c member
  rcases mem_intercalate member with colon | ⟨part, inParts, inPart⟩
  · rw [colon]
    decide
  · obtain ⟨field, inFields, rfl⟩ := List.mem_map.mp inParts
    exact (inner_jobFields isPlain field inFields c inPart).2

variable {cfg : ReportConfig}

/-- Without delimiters in the servers, the jobs of a report are one word and
are read one by one. -/
theorem decodeJobs_jobText {b : ReportBuilder} (someJobs : cfg.jobs ≠ [])
    (isPlain : ∀ job ∈ cfg.jobs, ∀ server ∈ (b.outcome job).servers, server.IsPlain) :
    (∀ c ∈ (b.jobText cfg).toList, isSpace c = false) ∧
      decodeJobs (b.jobText cfg) = cfg.jobs.map b.readJob := by
  have entries : splitChar '|' (b.jobText cfg) = cfg.jobs.map b.encodeJob := by
    apply splitChar_intercalate rfl
    · intro entry member bar
      obtain ⟨job, inJobs, rfl⟩ := List.mem_map.mp member
      exact (mem_encodeJob (isPlain job inJobs) '|' bar).1 rfl
    · simpa using someJobs
  constructor
  · unfold ReportBuilder.jobText
    rw [String.toList_intercalate]
    intro c member
    rcases mem_intercalate member with bar | ⟨part, inParts, inPart⟩
    · rw [bar]
      decide
    · obtain ⟨entry, inEntries, rfl⟩ := List.mem_map.mp inParts
      obtain ⟨job, inJobs, rfl⟩ := List.mem_map.mp inEntries
      exact (mem_encodeJob (isPlain job inJobs) c inPart).2
  · unfold decodeJobs
    rw [entries, filterMap_map_eq fun job member => decodeJob_encodeJob (isPlain job member)]

/-! ### What a reader can find -/

/-- The characters that separate jobs, fields, servers and parts. -/
def isMark (c : Char) : Bool := c = '|' || c = ':' || c = ',' || c = '/'

theorem mem_splitChar {sep : Char} {text part : String} (member : part ∈ splitChar sep text) :
    ∀ c ∈ part.toList, c ≠ sep ∧ c ∈ text.toList := by
  unfold splitChar at member
  obtain ⟨chars, inSplit, rfl⟩ := List.mem_map.mp member
  rw [List.splitOn_eq_splitOnP] at inSplit
  intro c inPart
  rw [String.toList_ofList] at inPart
  have found := mem_splitOnP inSplit c inPart
  exact ⟨by simpa using found.1, found.2⟩

theorem sum_count_splitChar {sep x : Char} (different : x ≠ sep) (text : String) :
    ((splitChar sep text).map fun part => part.toList.count x).sum = text.toList.count x := by
  unfold splitChar
  rw [List.splitOn_eq_splitOnP, List.map_map]
  have parts := @sum_count_splitOnP Char (· == sep) _ x (by simpa using different) text.toList
  have same : ((fun part : String => part.toList.count x) ∘ String.ofList) = List.count x := by
    funext chars
    simp
  rw [same, parts]

theorem trimSpace_sublist (text : String) : (trimSpace text).toList.Sublist text.toList := by
  unfold trimSpace
  rw [String.toList_ofList]
  have inner : ((text.toList.dropWhile isSpace).reverse.dropWhile isSpace).Sublist
      (text.toList.dropWhile isSpace).reverse := List.dropWhile_sublist _
  have reversed := inner.reverse
  rw [List.reverse_reverse] at reversed
  exact reversed.trans (List.dropWhile_sublist _)

/-- A server that is found has three parts and takes two slashes. -/
theorem decodeServer_spec {token shown : String} (found : decodeServer token = some shown) :
    ∃ db version arch, shown = decodeServerToken db version arch ∧
      (∀ part ∈ [db, version, arch], ∀ c ∈ part.toList, c ≠ '/' ∧ c ∈ token.toList) ∧
      2 ≤ token.toList.count '/' := by
  unfold decodeServer at found
  split at found
  · rename_i db version arch parts
    refine ⟨db, version, arch, (Option.some.inj found).symm, ?_, ?_⟩
    · intro part member c inPart
      rw [← parts] at member
      have inTrimmed := mem_splitChar member c inPart
      exact ⟨inTrimmed.1, (trimSpace_sublist token).subset inTrimmed.2⟩
    · have slashes : (trimSpace token).toList.count '/' + 1 = 3 := by
        rw [← length_splitOn]
        have count := congrArg List.length parts
        unfold splitChar at count
        rw [List.length_map] at count
        exact count
      have fewer := (trimSpace_sublist token).count_le '/'
      omega
  · cases found

theorem decodeServers_count (field : String) :
    2 * (decodeServers field).length ≤ field.toList.count '/' := by
  unfold decodeServers
  have bounded := @sum_filterMap_le String String decodeServer (fun _ => 2)
    (fun token => token.toList.count '/')
    (fun token shown found => (decodeServer_spec found).choose_spec.choose_spec.choose_spec.2.2)
    (splitChar ',' field)
  rw [sum_count_splitChar (by decide), List.map_const', List.sum_replicate_nat, Nat.mul_comm]
    at bounded
  exact bounded

/-- The servers of a job are those of one of its fields. -/
theorem decodeJob_servers {entry : String} {job : Job} (found : decodeJob entry = some job) :
    job.servers = [] ∨ ∃ field ∈ splitChar ':' entry, job.servers = decodeServers field := by
  unfold decodeJob at found
  dsimp only at found
  split at found
  · cases found
  · rw [← Option.some.inj found]
    unfold laterField
    cases last : (splitChar ':' entry)[19]? with
    | none => exact .inl rfl
    | some field => exact .inr ⟨field, List.mem_of_getElem? last, rfl⟩

def serversOf (jobs : List Job) : List String := jobs.flatMap Job.servers

theorem decodeJobs_count (val : String) :
    2 * (serversOf (decodeJobs val)).length ≤ val.toList.count '/' := by
  have perJob : ∀ entry job, decodeJob entry = some job →
      2 * job.servers.length ≤ entry.toList.count '/' := by
    intro entry job found
    rcases decodeJob_servers found with none | ⟨field, member, isField⟩
    · simp [none]
    · have inField := decodeServers_count field
      have fields := @sum_count_splitChar ':' '/' (by decide) entry
      have inParts : field.toList.count '/' ∈
          (splitChar ':' entry).map fun part => part.toList.count '/' :=
        List.mem_map.mpr ⟨field, member, rfl⟩
      have single := List.single_le_sum (fun _ _ => Nat.zero_le _) _ inParts
      rw [isField]
      omega
  have bounded := sum_filterMap_le perJob (splitChar '|' val)
  rw [sum_count_splitChar (by decide)] at bounded
  have total : 2 * (serversOf (decodeJobs val)).length =
      (((splitChar '|' val).filterMap decodeJob).map fun job => 2 * job.servers.length).sum := by
    unfold serversOf decodeJobs
    rw [List.length_flatMap, List.sum_map_mul_left]
  rw [total]
  exact bounded

/-- A server that is found in a value comes from three parts of it. -/
theorem mem_serversOf {val shown : String} (member : shown ∈ serversOf (decodeJobs val)) :
    ∃ db version arch, shown = decodeServerToken db version arch ∧
      ∀ part ∈ [db, version, arch], ∀ c ∈ part.toList, isMark c = false ∧ c ∈ val.toList := by
  obtain ⟨job, inJobs, inServers⟩ := List.mem_flatMap.mp member
  obtain ⟨entry, inEntries, found⟩ := List.mem_filterMap.mp inJobs
  rcases decodeJob_servers found with none | ⟨field, inFields, isField⟩
  · rw [none] at inServers
    cases inServers
  · rw [isField] at inServers
    obtain ⟨token, inTokens, isServer⟩ := List.mem_filterMap.mp inServers
    obtain ⟨db, version, arch, shape, parts, -⟩ := decodeServer_spec isServer
    refine ⟨db, version, arch, shape, ?_⟩
    intro part inParts c inPart
    obtain ⟨notSlash, inToken⟩ := parts part inParts c inPart
    obtain ⟨notComma, inField⟩ := mem_splitChar inTokens c inToken
    obtain ⟨notColon, inEntry⟩ := mem_splitChar inFields c inField
    obtain ⟨notBar, inValue⟩ := mem_splitChar inEntries c inEntry
    exact ⟨by simp [isMark, notSlash, notComma, notColon, notBar], inValue⟩

theorem decodeName_cases (db : String) :
    (∃ kind : DbType, decodeName db dbTypeNames = kind.name) ∨ decodeName db dbTypeNames = "unknown" ∨
      decodeName db dbTypeNames = "unknown (" ++ db ++ ")" := by
  unfold decodeName
  cases found : dbTypeNames.lookup db with
  | none =>
    dsimp only
    split_ifs
    · exact .inr (.inl rfl)
    · exact .inr (.inr rfl)
  | some name =>
    obtain ⟨before, after, shape, -⟩ := List.lookup_eq_some_iff.mp found
    have member : (db, name) ∈ dbTypeNames := by
      rw [shape]
      simp
    have known : ∀ entry ∈ dbTypeNames, ∃ kind : DbType, entry.2 = kind.name := by
      simp only [dbTypeNames, List.mem_cons, List.not_mem_nil, or_false, forall_eq_or_imp,
        forall_eq]
      exact ⟨⟨.couch, rfl⟩, ⟨.influx, rfl⟩, ⟨.mssql, rfl⟩, ⟨.mariadb, rfl⟩, ⟨.mongo, rfl⟩,
        ⟨.mysql, rfl⟩, ⟨.postgres, rfl⟩, ⟨.redis, rfl⟩, ⟨.sqlite, rfl⟩, ⟨.other, rfl⟩⟩
    exact .inl (known _ member)

theorem kind_name_spec (kind : DbType) : kind.name.toList.all (fun c => !isMark c) = true ∧
      (kind ≠ .other → kind.name.toList.countP isSpace = 0 ∧ kind.name.toList.head? ≠ some 'u') ∧
      (kind = .other → kind.name.toList.head? = some 'u') := by
  cases kind <;> decide

def blanks (text : String) : Nat := text.toList.countP isSpace

theorem blanks_append (first second : String) : blanks (first ++ second) = blanks first + blanks second := by
  unfold blanks
  rw [String.toList_append, List.countP_append]

theorem blanks_eq_zero (noBlank : ∀ c ∈ text.toList, isSpace c = false) : blanks text = 0 := by
  unfold blanks
  rw [List.countP_eq_zero]
  intro c member
  simp [noBlank c member]

theorem decodeArch_subset (arch : String) :
    decodeArch arch = "amd64" ∨ decodeArch arch = "arm64" ∨ decodeArch arch = "" ∨
      decodeArch arch = arch := by
  unfold decodeArch
  split_ifs <;> simp

theorem mem_decodeServerToken {db version arch : String} {c : Char}
    (member : c ∈ (decodeServerToken db version arch).toList) :
    c ∈ (decodeName db dbTypeNames).toList ∨ c = ' ' ∨ c ∈ version.toList ∨
      c ∈ (decodeArch arch).toList := by
  unfold decodeServerToken at member
  dsimp only at member
  have blank : " ".toList = [' '] := rfl
  split_ifs at member
  · simp only [String.toList_append, List.mem_append, blank, List.mem_singleton] at member
    rcases member with (inName | isBlank) | inVersion
    · exact .inl inName
    · exact .inr (.inl isBlank)
    · exact .inr (.inr (.inl inVersion))
  · simp only [String.toList_append, List.mem_append, blank, List.mem_singleton] at member
    rcases member with (((inName | isBlank) | inVersion) | isBlank) | inArch
    · exact .inl inName
    · exact .inr (.inl isBlank)
    · exact .inr (.inr (.inl inVersion))
    · exact .inr (.inl isBlank)
    · exact .inr (.inr (.inr inArch))

/-- No mark is ever shown. -/
theorem serversOf_noMark {val shown : String} (member : shown ∈ serversOf (decodeJobs val)) :
    ∀ c ∈ shown.toList, isMark c = false := by
  obtain ⟨db, version, arch, rfl, parts⟩ := mem_serversOf member
  have inDb : ∀ c ∈ db.toList, isMark c = false := fun c inPart => (parts db (by simp) c inPart).1
  have inVersion : ∀ c ∈ version.toList, isMark c = false :=
    fun c inPart => (parts version (by simp) c inPart).1
  have inArch : ∀ c ∈ arch.toList, isMark c = false :=
    fun c inPart => (parts arch (by simp) c inPart).1
  have free : ∀ {text : String}, text.toList.all (fun c => !isMark c) = true →
      ∀ c ∈ text.toList, isMark c = false := by
    intro text all c inText
    simpa using List.all_eq_true.mp all c inText
  intro c inShown
  rcases mem_decodeServerToken inShown with inName | rfl | inText | inText
  · rcases decodeName_cases db with ⟨kind, isName⟩ | isName | isName
    · rw [isName] at inName
      exact free (kind_name_spec kind).1 c inName
    · rw [isName] at inName
      exact @free "unknown" (by decide) c inName
    · rw [isName, String.toList_append, String.toList_append, List.mem_append, List.mem_append]
        at inName
      rcases inName with (early | inCode) | late
      · exact @free "unknown (" (by decide) c early
      · exact inDb c inCode
      · exact @free ")" (by decide) c late
  · decide
  · exact inVersion c inText
  · rcases decodeArch_subset arch with isArch | isArch | isArch | isArch
    · rw [isArch] at inText
      exact @free "amd64" (by decide) c inText
    · rw [isArch] at inText
      exact @free "arm64" (by decide) c inText
    · rw [isArch] at inText
      cases inText
    · rw [isArch] at inText
      exact inArch c inText

/-- A known engine is shown with two blanks at most. -/
theorem serversOf_blanks {val shown : String} (noBlank : ∀ c ∈ val.toList, isSpace c = false)
    (member : shown ∈ serversOf (decodeJobs val)) :
    blanks shown ≤ 2 ∨ shown.toList.head? = some 'u' := by
  obtain ⟨db, version, arch, rfl, parts⟩ := mem_serversOf member
  have solid : ∀ part ∈ [db, version, arch], blanks part = 0 := fun part inParts =>
    blanks_eq_zero fun c inPart => noBlank c (parts part inParts c inPart).2
  have versionSolid := solid version (by simp)
  have archSolid := solid arch (by simp)
  have shownArch : blanks (decodeArch arch) = 0 := by
    rcases decodeArch_subset arch with isArch | isArch | isArch | isArch
    · rw [isArch]
      decide
    · rw [isArch]
      decide
    · rw [isArch]
      decide
    · rw [isArch, archSolid]
  have oneBlank : blanks " " = 1 := by decide
  have known : blanks (decodeName db dbTypeNames) = 0 ∨
      (decodeName db dbTypeNames).toList.head? = some 'u' := by
    rcases decodeName_cases db with ⟨kind, isName⟩ | isName | isName
    · rw [isName]
      by_cases isOther : kind = .other
      · exact .inr ((kind_name_spec kind).2.2 isOther)
      · exact .inl ((kind_name_spec kind).2.1 isOther).1
    · rw [isName]
      exact .inr (by decide)
    · rw [isName]
      right
      simp
  rcases known with noneInName | startsUnknown
  · left
    unfold decodeServerToken
    dsimp only
    split_ifs
    · simp only [blanks_append, noneInName, versionSolid, oneBlank]
      omega
    · simp only [blanks_append, noneInName, versionSolid, oneBlank, shownArch]
      omega
  · right
    unfold decodeServerToken
    dsimp only
    split_ifs <;> simp [startsUnknown]

/-! ### What the servers are shown with -/

def NoMark (text : String) : Prop := ∀ c ∈ text.toList, isMark c = false

def NoBlank (text : String) : Prop := ∀ c ∈ text.toList, isSpace c = false

theorem plain_of_noMark (noMark : NoMark text) (noBlank : NoBlank text) : Plain text := by
  unfold Plain
  rw [List.all_eq_true]
  intro c member
  have notMark := noMark c member
  have notBlank := noBlank c member
  unfold isMark at notMark
  unfold isDelimiter
  simp only [Bool.or_eq_false_iff] at notMark
  simp [notBlank, notMark.1.1.1, notMark.1.1.2, notMark.1.2, notMark.2]

theorem Server.noMark_of_shown (noMark : NoMark server.shown) :
    NoMark server.version ∧ NoMark server.arch := by
  constructor
  · intro c member
    apply noMark c
    unfold Server.shown
    simp [member]
  · intro c member
    apply noMark c
    have notEmpty : server.arch ≠ "" := by
      intro empty
      rw [empty] at member
      cases member
    unfold Server.shown
    rw [if_neg notEmpty]
    simp [member]

/-- A blank in the architecture shows. -/
theorem Server.noBlank_arch
    (few : blanks server.shown ≤ 2 ∨ server.shown.toList.head? = some 'u') : NoBlank server.arch := by
  obtain ⟨-, -, notOther⟩ := server.spec
  have name := (kind_name_spec server.kind).2.1 notOther
  have oneBlank : blanks " " = 1 := by decide
  by_contra dirty
  unfold NoBlank at dirty
  push Not at dirty
  obtain ⟨c, member, isBlank⟩ := dirty
  have notEmpty : server.arch ≠ "" := by
    intro empty
    rw [empty] at member
    cases member
  have positive : 0 < blanks server.arch := by
    unfold blanks
    rw [List.countP_pos_iff]
    exact ⟨c, member, by simpa using isBlank⟩
  rcases few with bounded | unknown
  · unfold Server.shown at bounded
    rw [if_neg notEmpty] at bounded
    simp only [blanks_append, oneBlank] at bounded
    omega
  · unfold Server.shown at unknown
    cases chars : server.kind.name.toList with
    | nil =>
      cases kind : server.kind with
      | other => exact notOther kind
      | _ =>
        rw [kind] at chars
        revert chars
        decide
    | cons first rest =>
      have sameHead : (server.kind.name ++ " " ++ server.version ++
          (if server.arch = "" then "" else " " ++ server.arch)).toList.head? = some first := by
        simp [chars]
      rw [sameHead] at unknown
      apply name.2
      rw [chars]
      exact unknown

/-! ### Slashes -/

theorem count_eq_zero {x : Char} (absent : x ∉ text.toList) : text.toList.count x = 0 :=
  List.count_eq_zero.mpr absent

theorem count_token (versionFree : NoMark server.version)
    (archFree : NoMark server.arch) : server.token.toList.count '/' = 2 := by
  have slash : isMark '/' = true := by decide
  have absent : ∀ {text : String}, NoMark text → '/' ∉ text.toList := by
    intro text noMark member
    rw [noMark '/' member] at slash
    cases slash
  have archCodeFree : NoMark (archCode server.arch) := by
    unfold archCode
    intro c member
    split_ifs at member
    · have all : "1".toList.all (fun c => !isMark c) = true := by decide
      simpa using List.all_eq_true.mp all c member
    · have all : "2".toList.all (fun c => !isMark c) = true := by decide
      simpa using List.all_eq_true.mp all c member
    · exact archFree c member
    · have all : "0".toList.all (fun c => !isMark c) = true := by decide
      simpa using List.all_eq_true.mp all c member
  have code := count_eq_zero ((dbTypeNames_sound server.kind).2.free (c := '/') (by decide))
  have version := count_eq_zero (absent versionFree)
  have arch := count_eq_zero (absent archCodeFree)
  have one : "/".toList.count '/' = 1 := by decide
  rw [server.spec.1]
  simp only [String.toList_append, List.count_append, code, version, arch, one]

theorem count_serverField (free : ∀ server ∈ servers, NoMark server.version ∧ NoMark server.arch) :
    (serverField servers).toList.count '/' = 2 * servers.length := by
  unfold serverField
  have comma : ",".toList = [','] := rfl
  rw [String.toList_intercalate, comma, count_intercalate (by decide), List.map_map, List.map_map]
  induction servers with
  | nil => rfl
  | cons server rest ih =>
    obtain ⟨head, others⟩ := List.forall_mem_cons.mp free
    have tail := ih others
    have slashes := count_token head.1 head.2
    rw [List.map_cons, List.sum_cons, tail, List.length_cons, Function.comp_apply,
      Function.comp_apply, slashes]
    omega

theorem count_encodeJob {b : ReportBuilder}
    (free : ∀ server ∈ (b.outcome job).servers, NoMark server.version ∧ NoMark server.arch) :
    (b.encodeJob job).toList.count '/' = 2 * (b.outcome job).servers.length := by
  have colon : ":".toList = [':'] := rfl
  have codes : ((b.codeFields job).map fun field => field.toList.count '/').sum = 0 := by
    apply List.sum_eq_zero
    intro count member
    obtain ⟨field, inFields, rfl⟩ := List.mem_map.mp member
    exact count_eq_zero ((plain_codeFields b job field inFields).free (by decide))
  have servers := count_serverField free
  have counted : (List.count '/' ∘ String.toList) = fun field : String => field.toList.count '/' := rfl
  unfold ReportBuilder.encodeJob
  rw [String.toList_intercalate, colon, count_intercalate (by decide), List.map_map, jobFields_eq,
    List.map_append, List.sum_append, counted, codes, List.map_singleton, List.sum_singleton, servers,
    Nat.zero_add]

theorem count_jobText {b : ReportBuilder}
    (free : ∀ job ∈ cfg.jobs, ∀ server ∈ (b.outcome job).servers,
      NoMark server.version ∧ NoMark server.arch) :
    (b.jobText cfg).toList.count '/' = 2 * (serversOf (cfg.jobs.map b.reportedJob)).length := by
  have bar : "|".toList = ['|'] := rfl
  unfold ReportBuilder.jobText serversOf
  rw [String.toList_intercalate, bar, count_intercalate (by decide), List.map_map, List.map_map]
  generalize cfg.jobs = jobs at free ⊢
  induction jobs with
  | nil => rfl
  | cons job rest ih =>
    have head := count_encodeJob (free job List.mem_cons_self)
    have tail := ih (List.forall_mem_cons.mp free).2
    have shown : (b.reportedJob job).servers.length = (b.outcome job).servers.length :=
      List.length_map ..
    rw [List.map_cons, List.sum_cons, tail, Function.comp_apply, Function.comp_apply, head,
      List.map_cons, List.flatMap_cons, List.length_append, shown]
    omega

/-- The value the jobs are read from is a piece of one word of the jobs' text. -/
theorem lastValue_word {text val : String}
    (found : (lastValue "j" (stray text)).or (some (firstWord text)) = some val) :
    (∀ c ∈ val.toList, isSpace c = false) ∧
      (val = "" ∨ ∃ word ∈ words isSpace text.toList, val.toList.count '/' ≤ word.count '/') := by
  have inWords : ∀ word ∈ words isSpace (text.toList.dropWhile fun c => !isSpace c),
      word ∈ words isSpace text.toList := by
    intro word member
    by_cases start : (text.toList.takeWhile fun c => !isSpace c) = []
    · have whole : text.toList.dropWhile (fun c => !isSpace c) = text.toList := by
        have joined := @List.takeWhile_append_dropWhile _ (fun c => !isSpace c) text.toList
        rw [start, List.nil_append] at joined
        exact joined
      rw [whole] at member
      exact member
    · rw [words_eq_cons start]
      exact List.mem_cons_of_mem _ member
  rcases Option.or_eq_some_iff.mp found with isStray | ⟨-, isFirst⟩
  · obtain ⟨token, inStray, isValue⟩ := mem_of_lastValue isStray
    obtain ⟨word, member, rfl⟩ := List.mem_map.mp inStray
    have suffix : val.toList.Sublist word := by
      unfold valueOf cut at isValue
      dsimp only at isValue
      rw [String.toList_ofList] at isValue
      cases rest : word.drop (word.takeWhile fun c => decide (c ≠ '=')).length with
      | nil =>
        rw [rest] at isValue
        cases isValue
      | cons equals after =>
        rw [rest] at isValue
        dsimp only at isValue
        split_ifs at isValue
        rw [← Option.some.inj isValue, String.toList_ofList]
        have dropped := List.drop_sublist (word.takeWhile fun c => decide (c ≠ '=')).length word
        rw [rest] at dropped
        exact (List.sublist_cons_self _ _).trans dropped
    refine ⟨fun c inValue => (mem_words member c (suffix.subset inValue)).1, ?_⟩
    exact .inr ⟨word, inWords word member, suffix.count_le '/'⟩
  · have isWord : val = firstWord text := (Option.some.inj isFirst).symm
    have chars : val.toList = text.toList.takeWhile fun c => !isSpace c := by
      rw [isWord, firstWord, String.toList_ofList]
    constructor
    · intro c member
      rw [chars] at member
      simpa using List.mem_takeWhile_imp member
    · by_cases start : (text.toList.takeWhile fun c => !isSpace c) = []
      · left
        apply String.toList_injective
        rw [chars, start]
        rfl
      · right
        refine ⟨text.toList.takeWhile fun c => !isSpace c, ?_, by rw [chars]⟩
        rw [words_eq_cons start]
        exact List.mem_cons_self

/-- A text cut by a blank with a slash on either side has no word with all of
its slashes. -/
theorem count_word_lt {first second : List Char} {blank : Char} (isBlank : isSpace blank = true)
    (inFirst : '/' ∈ first) (inSecond : '/' ∈ second) {word : List Char}
    (member : word ∈ words isSpace (first ++ blank :: second)) :
    word.count '/' < (first ++ blank :: second).count '/' := by
  have slash : isSpace '/' = false := by decide
  have firstPositive : 0 < first.count '/' := List.count_pos_iff.mpr inFirst
  have secondPositive : 0 < second.count '/' := List.count_pos_iff.mpr inSecond
  have total : (first ++ blank :: second).count '/' = first.count '/' + second.count '/' := by
    have different : blank ≠ '/' := by
      rintro rfl
      rw [slash] at isBlank
      cases isBlank
    rw [List.count_append, List.count_cons_of_ne different]
  have bounded : ∀ {text : List Char}, word ∈ words isSpace text → word.count '/' ≤ text.count '/' := by
    intro text inText
    rw [← sum_count_words slash text]
    exact List.single_le_sum (fun _ _ => Nat.zero_le _) _ (List.mem_map.mpr ⟨word, inText, rfl⟩)
  rw [words_append_cons _ _ isBlank] at member
  rcases List.mem_append.mp member with inLeft | inRight
  · have left := bounded inLeft
    omega
  · have right := bounded inRight
    omega

/-- The text of the jobs around a server. -/
theorem jobText_split {b : ReportBuilder}
    (inJobs : job ∈ cfg.jobs) (inServers : server ∈ (b.outcome job).servers) :
    ∃ before after, (b.jobText cfg).toList = before ++ server.token.toList ++ after := by
  have tokenMember : server.token.toList ∈ ((b.outcome job).servers.map Server.token).map String.toList :=
    List.mem_map_of_mem (List.mem_map_of_mem inServers)
  have fieldMember : (serverField (b.outcome job).servers).toList ∈
      (b.jobFields job).map String.toList := by
    rw [jobFields_eq]
    exact List.mem_map_of_mem (List.mem_append_right _ (List.mem_singleton_self _))
  have jobMember : (b.encodeJob job).toList ∈ (cfg.jobs.map b.encodeJob).map String.toList :=
    List.mem_map_of_mem (List.mem_map_of_mem inJobs)
  obtain ⟨first, last, inField⟩ := @intercalate_split _ ',' _ _ tokenMember
  obtain ⟨earlier, later, inJob⟩ := @intercalate_split _ ':' _ _ fieldMember
  obtain ⟨before, after, inText⟩ := @intercalate_split _ '|' _ _ jobMember
  have field : (serverField (b.outcome job).servers).toList = first ++ server.token.toList ++ last := by
    rw [← inField]
    exact String.toList_intercalate
  have entry : (b.encodeJob job).toList =
      earlier ++ (serverField (b.outcome job).servers).toList ++ later := by
    rw [← inJob]
    exact String.toList_intercalate
  have text : (b.jobText cfg).toList = before ++ (b.encodeJob job).toList ++ after := by
    rw [← inText]
    exact String.toList_intercalate
  refine ⟨before ++ earlier ++ first, last ++ later ++ after, ?_⟩
  rw [text, entry, field]
  simp

/-- Where the servers are read as they were reported, no delimiter is in them. -/
theorem isPlain_of_read {b : ReportBuilder} {val : String}
    (found : (lastValue "j" (stray (b.jobText cfg))).or (some (firstWord (b.jobText cfg))) = some val)
    (same : decodeJobs val = cfg.jobs.map b.reportedJob) :
    ∀ job ∈ cfg.jobs, ∀ server ∈ (b.outcome job).servers, server.IsPlain := by
  obtain ⟨valSolid, inWord⟩ := lastValue_word found
  have listed : ∀ job ∈ cfg.jobs, ∀ server ∈ (b.outcome job).servers,
      server.shown ∈ serversOf (decodeJobs val) := by
    intro job inJobs server inServers
    rw [same]
    exact List.mem_flatMap.mpr ⟨b.reportedJob job, List.mem_map_of_mem inJobs,
      List.mem_map_of_mem inServers⟩
  have noMark : ∀ job ∈ cfg.jobs, ∀ server ∈ (b.outcome job).servers,
      NoMark server.version ∧ NoMark server.arch := fun job inJobs server inServers =>
    Server.noMark_of_shown (serversOf_noMark (listed job inJobs server inServers))
  intro job inJobs server inServers
  have marks := noMark job inJobs server inServers
  have archSolid : NoBlank server.arch :=
    Server.noBlank_arch (serversOf_blanks valSolid (listed job inJobs server inServers))
  have versionSolid : NoBlank server.version := by
    by_contra dirty
    unfold NoBlank at dirty
    push Not at dirty
    obtain ⟨blank, member, isBlank⟩ := dirty
    obtain ⟨start, rest, version⟩ := List.append_of_mem member
    obtain ⟨before, after, text⟩ := jobText_split inJobs inServers
    have token : server.token.toList = (server.kind.code.toList ++ '/' :: start) ++
        blank :: (rest ++ '/' :: (archCode server.arch).toList) := by
      rw [server.spec.1]
      simp [version]
    have cutText : (b.jobText cfg).toList =
        (before ++ (server.kind.code.toList ++ '/' :: start)) ++
          blank :: (rest ++ '/' :: (archCode server.arch).toList ++ after) := by
      rw [text, token]
      simp
    have total := count_jobText noMark
    have used := decodeJobs_count val
    rw [same] at used
    have positive : 0 < (b.jobText cfg).toList.count '/' := by
      apply List.count_pos_iff.mpr
      rw [cutText]
      simp
    rcases inWord with empty | ⟨word, isWord, bounded⟩
    · rw [empty] at used
      have none : "".toList.count '/' = 0 := rfl
      omega
    · rw [cutText] at isWord
      have fewer := count_word_lt (by simpa using isBlank) (by simp) (by simp) isWord
      rw [← cutText] at fewer
      omega
  exact ⟨plain_of_noMark marks.1 versionSolid, plain_of_noMark marks.2 archSolid⟩

/-! ### Reading a report back -/

/-- The payload is decoded to the number of jobs and to the jobs that were
reported. -/
def ReadsBack (b : ReportBuilder) (cfg : ReportConfig) : Prop :=
  ∃ d, decodePayload (b.build cfg) = .ok d ∧ d.jobCount = cfg.jobs.length ∧
    d.jobs = cfg.jobs.map b.reportedJob

/-- No number of the job is the smallest one, and its servers hold no delimiter
and no architecture that reads like a code. -/
def ReportBuilder.JobKept (b : ReportBuilder) (job : JobConfig) : Prop :=
  (∀ n ∈ b.numbers job, n ≠ Int64.minValue) ∧
    ∀ server ∈ (b.outcome job).servers, server.IsPlain ∧ server.arch ∉ ["0", "1", "2"]

/-- No word of the image's version passes for another number of jobs. -/
def ReportBuilder.CountKept (b : ReportBuilder) (cfg : ReportConfig) : Prop :=
  b.container = true → ∀ val, lastValue "n" (stray b.imageVersion) = some val →
    atoiCode val = cfg.jobs.length

/-- In a report without jobs, no word of a text passes for one. -/
def ReportBuilder.NoStrayJobs (b : ReportBuilder) (cfg : ReportConfig) : Prop :=
  cfg.jobs = [] → ∀ val, lastValue "j" (b.rawTexts.flatMap stray) = some val → decodeJobs val = []

theorem atoiCode_jobCount (cfg : ReportConfig) :
    atoiCode (itoa (Int64.ofNat cfg.jobs.length)) = cfg.jobs.length := by
  have inRange := cfg.inRange
  have value : (Int64.ofNat cfg.jobs.length).toInt = cfg.jobs.length :=
    Int64.toInt_ofNat_of_lt inRange
  rw [← value]
  apply (atoiCode_itoa_iff _).mpr
  intro isMin
  rw [isMin] at value
  have smallest : Int64.minValue.toInt = -9223372036854775808 := by decide
  omega

/-- The number of jobs is right, where no word of the jobs' text is taken for
it. -/
theorem count_iff {b : ReportBuilder} (noStray : cfg.jobs ≠ [] → stray (b.jobText cfg) = []) :
    ((lastValue "n" ((b.tokens cfg).flatMap fields)).map atoiCode).getD 0 = cfg.jobs.length ↔
      b.CountKept cfg := by
  have jobsPart : (if cfg.jobs ≠ [] then lastValue "n" (stray (b.jobText cfg)) else none) = none := by
    split_ifs with someJobs
    · rw [noStray someJobs]
      rfl
    · rfl
  rw [lastValue_count, jobsPart, Option.none_or]
  unfold ReportBuilder.CountKept
  cases b.container with
  | false => simp [atoiCode_jobCount]
  | true =>
    cases lastValue "n" (stray b.imageVersion) with
    | none => simp [atoiCode_jobCount]
    | some val => simp

theorem readsBack_iff (b : ReportBuilder) (cfg : ReportConfig) : ReadsBack b cfg ↔
      (∀ job ∈ cfg.jobs, b.JobKept job) ∧ b.CountKept cfg ∧ b.NoStrayJobs cfg := by
  obtain ⟨d, decoded, jobs, jobCount⟩ := decodePayload_build b cfg
  have reads : ReadsBack b cfg ↔ d.jobCount = cfg.jobs.length ∧ d.jobs = cfg.jobs.map b.reportedJob := by
    unfold ReadsBack
    rw [decoded]
    constructor
    · rintro ⟨other, same, count, read⟩
      rw [Except.ok.inj same]
      exact ⟨count, read⟩
    · intro both
      exact ⟨d, rfl, both⟩
  rw [reads, jobs, jobCount, lastValue_jobs]
  by_cases someJobs : cfg.jobs ≠ []
  · rw [if_pos someJobs]
    obtain ⟨val, found⟩ : ∃ val, (lastValue "j" (stray (b.jobText cfg))).or
        (some (firstWord (b.jobText cfg))) = some val := by
      cases lastValue "j" (stray (b.jobText cfg)) with
      | none => exact ⟨_, rfl⟩
      | some val => exact ⟨_, rfl⟩
    -- Servers without delimiters leave one word, which is read job by job.
    have clean : (∀ job ∈ cfg.jobs, ∀ server ∈ (b.outcome job).servers, server.IsPlain) →
        stray (b.jobText cfg) = [] ∧ decodeJobs val = cfg.jobs.map b.readJob := by
      intro isPlain
      obtain ⟨solid, read⟩ := decodeJobs_jobText someJobs isPlain
      obtain ⟨noStray, whole⟩ := stray_of_noBlank solid
      rw [noStray, whole] at found
      rw [← Option.some.inj found]
      exact ⟨noStray, read⟩
    rw [found, Option.map_some, Option.getD_some]
    constructor
    · rintro ⟨count, same⟩
      have isPlain := isPlain_of_read found same
      obtain ⟨noStray, read⟩ := clean isPlain
      rw [read, List.map_inj_left] at same
      refine ⟨?_, (count_iff fun _ => noStray).mp count, fun empty => absurd empty someJobs⟩
      intro job member
      obtain ⟨numbers, archs⟩ := (readJob_eq_iff b job).mp (same job member)
      exact ⟨numbers, fun server inServers =>
        ⟨isPlain job member server inServers, archs server inServers⟩⟩
    · rintro ⟨kept, count, -⟩
      obtain ⟨noStray, read⟩ := clean fun job member server inServers =>
        ((kept job member).2 server inServers).1
      refine ⟨(count_iff fun _ => noStray).mpr count, ?_⟩
      rw [read, List.map_inj_left]
      intro job member
      exact (readJob_eq_iff b job).mpr ⟨(kept job member).1, fun server inServers =>
        ((kept job member).2 server inServers).2⟩
  · rw [if_neg someJobs]
    rw [ne_eq, not_not] at someJobs
    have jobsPart : ((lastValue "j" (b.rawTexts.flatMap stray)).map decodeJobs).getD [] =
        cfg.jobs.map b.reportedJob ↔ b.NoStrayJobs cfg := by
      unfold ReportBuilder.NoStrayJobs
      rw [someJobs]
      cases lastValue "j" (b.rawTexts.flatMap stray) with
      | none => simp
      | some val => simp
    rw [count_iff fun notEmpty => absurd someJobs notEmpty, jobsPart]
    have noJobs : ∀ job ∈ cfg.jobs, b.JobKept job := by
      rw [someJobs]
      simp
    exact ⟨fun both => ⟨noJobs, both⟩, fun all => all.2⟩

/-! ### The smallest level -/

def smallestLevel : ReportConfig where
  jobs := [{ type := "postgres", compression := some ⟨"zstd", Int64.minValue⟩ }]
  inRange := by decide

def plainReport : ReportBuilder where
  version := "5.0.0"
  instanceID := "ab12"
  reported := "2026-01-02T03:04:05Z"

/-- The smallest compression level is written as a lone minus sign and read as
zero. -/
theorem level_read_as_zero : ¬ ReadsBack plainReport smallestLevel := by
  rintro ⟨d, decoded, -, same⟩
  have someJobs : smallestLevel.jobs ≠ [] := List.cons_ne_nil _ _
  -- The job has no servers, so its text is one word and is read field by field.
  have noServers : ∀ job ∈ smallestLevel.jobs,
      ∀ server ∈ (plainReport.outcome job).servers, server.IsPlain := by
    simp [ReportBuilder.outcome, plainReport, outcomeFor]
  obtain ⟨solid, eachJob⟩ := decodeJobs_jobText someJobs noServers
  obtain ⟨noStray, whole⟩ := stray_of_noBlank solid
  obtain ⟨read, isRead, jobs, -⟩ := decodePayload_build plainReport smallestLevel
  have noWord : lastValue "j" [] = none := rfl
  rw [← Except.ok.inj (decoded.symm.trans isRead), lastValue_jobs, if_pos someJobs, noStray,
    noWord, whole, Option.none_or, Option.map_some, Option.getD_some, eachJob] at jobs
  rw [jobs, List.map_inj_left] at same
  have kept := (readJob_eq_iff plainReport _).mp (same _ List.mem_cons_self)
  exact kept.1 Int64.minValue (by simp [ReportBuilder.numbers, JobConfig.level]) rfl

end DbBackup.Stats
