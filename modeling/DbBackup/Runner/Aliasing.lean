import DbBackup.Lib.Calendar
import DbBackup.Lib.Delimited
import DbBackup.Runner.Chain

/-!
Owns when the backups of two identities are told apart by their names: a default
name is taken for a backup of every identity whose prefix it starts with.

Contract: the names of one identity never start with the prefix of another, and
the four searches of the chain never see them, exactly if the parts of the other
identity's tokens are not the first parts of such a name (`PartsApart`).

Does not own configured templates, or what a search does with the backups it
does see (`Runner.Chain`).
-/

namespace DbBackup.Runner.Chain

open Lib.Delimited Lib.GoString Lib.Sorting Lib.Time Pipeline Storage

/-- `path` is a name the default template gives to a backup of `id`. -/
def NameOf (id : Identity) (path : String) : Prop :=
  ∃ (job : Job) (strat : Strategy) (now : Instant),
    job.id = id ∧ 0 ≤ now.year ∧ path = defaultName job strat now

/-- The backups of `id` are never taken for backups of `other`: their names do
not start with its prefix, and no search for `other` depends on them. -/
structure KeptApart (id other : Identity) : Prop where
  names : ∀ path, NameOf id path → hasPrefix path (backupPrefix other) = false
  chain : ∀ (sort : SliceSort newerFirst) entries readSidecar shown,
    (∀ e ∈ entries, shown e = false → NameOf id e.path) →
      chainInfo sort (some (entries.filter shown)) readSidecar other =
        chainInfo sort (some entries) readSidecar other
  full : ∀ entries shown, (∀ e ∈ entries, shown e = false → NameOf id e.path) →
    findLastFullBackup (some (entries.filter shown)) other = findLastFullBackup (some entries) other
  parent : ∀ entries shown, (∀ e ∈ entries, shown e = false → NameOf id e.path) →
    findLastChainParent (some (entries.filter shown)) other =
      findLastChainParent (some entries) other
  position : ∀ (sort : SliceSort newerThenGreaterPath) entries readSidecar strat shown,
    (∀ e ∈ entries, shown e = false → NameOf id e.path) →
      findLastPosition sort (some (entries.filter shown)) readSidecar other strat =
        findLastPosition sort (some entries) readSidecar other strat

/-! ### Parts of a name -/

def nameTokens (id : Identity) : List String :=
  [id.type, (defaultFilenameTokens id).1, (defaultFilenameTokens id).2].filter (· ≠ "")

/-- The parts between dashes of the tokens that are not empty. -/
def nameParts (id : Identity) : List (List Char) :=
  (nameTokens id).flatMap fun token => token.toList.splitOn '-'

/-- The parts of `other` are not the first parts of a name of `id`: not some of
its own first parts, nor all of them and a strategy, nor all of them, a strategy
and a date. -/
structure PartsApart (id other : Identity) : Prop where
  tokens : ¬ nameParts other <+: nameParts id
  strategy : ∀ strat, nameParts other ≠ nameParts id ++ [(strategyToken strat).toList]
  date : ∀ strat now, 0 ≤ now.year →
    nameParts other ≠ nameParts id ++ [(strategyToken strat).toList, dateText now]

theorem intercalate_append_dash {tokens : List String} (some : tokens ≠ []) :
    ("-".intercalate tokens ++ "-").toList =
      terminated '-' (tokens.flatMap fun token => token.toList.splitOn '-') := by
  induction tokens with
  | nil => exact absurd rfl some
  | cons token rest ih =>
    rw [List.flatMap_cons, terminated_append, terminated_splitOn]
    cases rest with
    | nil => simp [terminated]
    | cons next others =>
      rw [← ih (by simp), String.intercalate_cons_cons]
      simp

theorem nameParts_noDash (id : Identity) : ∀ part ∈ nameParts id, '-' ∉ part := by
  intro part member dash
  obtain ⟨token, -, inToken⟩ := List.mem_flatMap.mp member
  rw [List.splitOn_eq_splitOnP] at inToken
  have other := (mem_splitOnP inToken '-' dash).1
  simp at other

theorem backupPrefix_toList {id : Identity} (typed : id.type ≠ "") :
    (backupPrefix id).toList = terminated '-' (nameParts id) := by
  have some : nameTokens id ≠ [] := by
    unfold nameTokens
    rw [List.filter_cons, if_pos (by simpa using typed)]
    simp
  exact intercalate_append_dash some

theorem dateText_noDash {now : Instant} (notNegative : 0 ≤ now.year) : '-' ∉ dateText now := by
  obtain ⟨digits, shape, allDigits, -, -⟩ := dateText_shape now
  rw [shape, if_neg (by omega), List.nil_append]
  intro dash
  exact absurd (allDigits '-' dash) (by decide)

theorem expandFilename_toList {id : Identity} (typed : id.type ≠ "") (strat : Strategy)
    (now : Instant) :
    (expandFilename id strat now).toList =
      terminated '-' (nameParts id ++ [(strategyToken strat).toList, dateText now]) ++
        clockDigits now := by
  have tokens : ¬ NoTokens id := fun none => typed none.1
  rw [expandFilename_eq tokens, String.toList_append, backupPrefix_toList typed, terminated_append]
  simp [terminated, formatCompact_toList]

theorem nameEnding_noDash (job : Job) : '-' ∉ (nameEnding job).toList := by
  have formats : ∀ ext ∈ [".couch", ".influx", ".mongo", ".redis", ".sql"], '-' ∉ ext.toList := by
    decide
  have compressions : '-' ∉ job.compression.extension.toList := by
    cases job.compression <;> decide
  have encryptions :
      '-' ∉ (if job.encryption = .none then "" else job.encryption.extension).toList := by
    cases job.encryption <;> decide
  unfold nameEnding
  simp [formats _ (formatExtension_mem job.type), compressions, encryptions]

/-! ### Names and prefixes -/

/-- The last part of a name holds no dash, so a prefix ends before it. -/
theorem hasPrefix_defaultName_iff {other : Identity} {job : Job} {strat : Strategy} {now : Instant}
    (typed : job.type ≠ "") (otherTyped : other.type ≠ "") (notNegative : 0 ≤ now.year) :
    hasPrefix (defaultName job strat now) (backupPrefix other) = true ↔
      nameParts other <+: nameParts job.id ++ [(strategyToken strat).toList, dateText now] := by
  have lastNoDash : '-' ∉ clockDigits now ++ (nameEnding job).toList := by
    rw [List.mem_append, not_or]
    refine ⟨fun dash => ?_, nameEnding_noDash job⟩
    exact absurd (clockDigits_isDigit now '-' dash) (by decide)
  have partsNoDash : ∀ part ∈ nameParts job.id ++ [(strategyToken strat).toList, dateText now],
      '-' ∉ part := by
    intro part member
    rw [List.mem_append, List.mem_cons, List.mem_singleton] at member
    rcases member with own | rfl | rfl
    · exact nameParts_noDash _ part own
    · exact strategyToken_noDash strat
    · exact dateText_noDash notNegative
  unfold hasPrefix
  rw [List.isPrefixOf_iff_prefix, defaultName_eq, String.toList_append,
    @expandFilename_toList job.id typed, backupPrefix_toList otherTyped, List.append_assoc]
  exact terminated_isPrefix_iff (nameParts_noDash other) partsNoDash lastNoDash

theorem isPrefix_append_pair {α : Type} {parts own : List (List α)} {first second : List α} :
    parts <+: own ++ [first, second] ↔
      parts <+: own ∨ parts = own ++ [first] ∨ parts = own ++ [first, second] := by
  rw [show own ++ [first, second] = (own ++ [first]) ++ [second] by simp,
    List.prefix_concat_iff, List.prefix_concat_iff]
  tauto

/-- A job with a given identity. -/
def jobFor (id : Identity) : Job where
  type := id.type
  host := id.host
  databases := [id.dbName]
  strategy := .full

theorem jobFor_id (id : Identity) : (jobFor id).id = id := by
  simp [jobFor, Job.id, Job.dbName]

theorem names_apart_iff {id other : Identity} (typed : id.type ≠ "")
    (otherTyped : other.type ≠ "") :
    (∀ path, NameOf id path → hasPrefix path (backupPrefix other) = false) ↔
      PartsApart id other := by
  constructor
  · intro apart
    have noPrefix : ∀ strat now, 0 ≤ now.year → ¬ nameParts other <+:
        nameParts id ++ [(strategyToken strat).toList, dateText now] := by
      intro strat now notNegative starts
      have named := apart _ ⟨jobFor id, strat, now, jobFor_id id, notNegative, rfl⟩
      rw [← jobFor_id id] at starts
      have clash := (@hasPrefix_defaultName_iff other (jobFor id) strat now typed otherTyped
        notNegative).mpr starts
      rw [named] at clash
      exact absurd clash (by simp)
    have epoch : 0 ≤ ({ nanos := 0 } : Instant).year := by decide
    refine ⟨?_, ?_, ?_⟩
    · intro starts
      exact noPrefix .full _ epoch (isPrefix_append_pair.mpr (.inl starts))
    · intro strat same
      exact noPrefix strat _ epoch (isPrefix_append_pair.mpr (.inr (.inl same)))
    · intro strat now notNegative same
      exact noPrefix strat now notNegative (isPrefix_append_pair.mpr (.inr (.inr same)))
  · rintro apart path ⟨job, strat, now, rfl, notNegative, rfl⟩
    by_contra starts
    rw [Bool.not_eq_false] at starts
    rcases isPrefix_append_pair.mp ((hasPrefix_defaultName_iff typed otherTyped notNegative).mp
      starts) with own | withStrategy | withDate
    · exact apart.tokens own
    · exact apart.strategy strat withStrategy
    · exact apart.date strat now notNegative withDate

/-! ### Searches -/

theorem hasPrefix_of_hasPrefix_append {path start more : String}
    (starts : hasPrefix path (start ++ more) = true) : hasPrefix path start = true := by
  obtain ⟨rest, rfl⟩ := (hasPrefix_iff _ _).mp starts
  rw [String.append_assoc]
  exact hasPrefix_append _ _

/-- Hiding names that do not start with the prefix changes no candidate. -/
theorem candidates_filter {id : Identity} {start : String} {entries : List Entry}
    {shown : Entry → Bool} (apart : ∀ path, NameOf id path → hasPrefix path start = false)
    (hidden : ∀ e ∈ entries, shown e = false → NameOf id e.path) :
    candidates (entries.filter shown) start = candidates entries start := by
  unfold candidates
  rw [List.filter_filter]
  apply List.filter_congr
  intro e member
  cases isShown : shown e with
  | true => simp
  | false => simp [apart e.path (hidden e member isShown)]

theorem keptApart_iff (id other : Identity) (typed : id.type ≠ "") (otherTyped : other.type ≠ "") :
    KeptApart id other ↔ PartsApart id other := by
  rw [← names_apart_iff typed otherTyped]
  constructor
  · intro apart
    exact apart.names
  · intro names
    have fullNames : ∀ path, NameOf id path →
        hasPrefix path (backupPrefix other ++ "full-") = false := by
      intro path isName
      by_contra starts
      rw [Bool.not_eq_false] at starts
      have wholePrefix := hasPrefix_of_hasPrefix_append starts
      rw [names path isName] at wholePrefix
      exact absurd wholePrefix (by simp)
    refine ⟨names, ?_, ?_, ?_, ?_⟩
    · intro sort entries readSidecar shown hidden
      simp only [chainInfo, candidates_filter names hidden]
    · intro entries shown hidden
      simp only [findLastFullBackup, candidates_filter fullNames hidden]
    · intro entries shown hidden
      simp only [findLastChainParent, candidates_filter names hidden]
    · intro sort entries readSidecar strat shown hidden
      simp only [findLastPosition, positionCandidates, candidates_filter names hidden]

theorem keptApart_hosts :
    KeptApart ⟨"mysql", "app", "db1"⟩ ⟨"mysql", "app", "db2"⟩ := by
  apply (keptApart_iff _ _ (by decide) (by decide)).mpr
  have parts : nameParts ⟨"mysql", "app", "db1"⟩ = ["mysql".toList, "app".toList, "db1".toList] ∧
      nameParts ⟨"mysql", "app", "db2"⟩ = ["mysql".toList, "app".toList, "db2".toList] := by
    decide +kernel
  refine ⟨?_, ?_, ?_⟩
  · rw [parts.1, parts.2]
    decide
  · intro strat same
    rw [parts.1, parts.2] at same
    simp at same
  · intro strat now _ same
    rw [parts.1, parts.2] at same
    simp at same

/-- Sanitizing makes one host of two. -/
theorem sanitized_hosts_alias :
    (⟨"mysql", "app", "db.local"⟩ : Identity) ≠ ⟨"mysql", "app", "db_local"⟩ ∧
      ¬ KeptApart ⟨"mysql", "app", "db.local"⟩ ⟨"mysql", "app", "db_local"⟩ := by
  refine ⟨by decide, ?_⟩
  intro apart
  have isName : NameOf ⟨"mysql", "app", "db.local"⟩
      (defaultName (jobFor ⟨"mysql", "app", "db.local"⟩) .full { nanos := 0 }) :=
    ⟨jobFor _, .full, { nanos := 0 }, jobFor_id _, by decide, rfl⟩
  have unseen := apart.names _ isName
  have seen : hasPrefix (defaultName (jobFor ⟨"mysql", "app", "db.local"⟩) .full { nanos := 0 })
      (backupPrefix ⟨"mysql", "app", "db_local"⟩) = true := by
    decide +kernel
  rw [seen] at unseen
  exact absurd unseen (by decide)

end DbBackup.Runner.Chain
