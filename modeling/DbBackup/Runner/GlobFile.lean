import DbBackup.Lib.Glob
import DbBackup.Storage.Sidecar
import Mathlib.Data.Int.Order.Basic

/-!
Owns `ResolveGlobFile` of `internal/scheduler/runner/glob.go`: the scan of a listing for the newest
backup file that a pattern matches.

Contract: `resolveGlobFile_newest`. The loop keeps an entry and the time in its name; `Newest` is
its invariant. Entries that are no backup files, or do not match, leave no trace.
-/

namespace DbBackup.Runner.GlobFile

open Lib.Glob Lib.Time Storage

/-! ### The source -/

inductive ResolveError where
  | list
  | invalidPattern (pattern : String)
  | noBackups (pattern : String)
deriving DecidableEq

/-- `path.Match`; none is `ErrBadPattern`. -/
def tryMatch (pattern name : String) : Option Bool :=
  (scanTerms pattern.toList.length pattern.toList).map fun terms => matchTerms terms name.toList

/-- `best` and `bestTS`, once there is one. -/
abbrev Best := Option (Entry × Instant)

def keepNewer (best : Best) (e : Entry) (timestamp : Instant) : Entry × Instant :=
  match best with
  | none => (e, timestamp)
  | some (best, bestTS) =>
    if best.modTime < e.modTime ∨ (e.modTime = best.modTime ∧ timestamp.after bestTS = true) then
      (e, timestamp)
    else (best, bestTS)

def resolveFrom (pattern : String) (best : Best) : List Entry → Except ResolveError Best
  | [] => .ok best
  | e :: rest =>
    match parseBackupFilename e.path with
    | .error _ => resolveFrom pattern best rest
    | .ok info =>
      match tryMatch pattern e.path with
      | none => .error (.invalidPattern pattern)
      | some false => resolveFrom pattern best rest
      | some true => resolveFrom pattern (some (keepNewer best e info.timestamp)) rest

def resolveGlobFile (listed : Option (List Entry)) (pattern : String) :
    Except ResolveError String :=
  match listed with
  | none => .error .list
  | some entries =>
    match resolveFrom pattern none entries with
    | .error err => .error err
    | .ok none => .error (.noBackups pattern)
    | .ok (some (best, _)) => .ok best.path

/-! ### What is looked for -/

/-- A pattern that `path.Match` can read. -/
structure Pattern where
  text : String
  terms : List Term
  scanned : scanTerms text.toList.length text.toList = some terms

/-- A backup file that the pattern matches, with the time in its name. -/
def Candidate (pattern : Pattern) (e : Entry) (timestamp : Instant) : Prop :=
  (∃ info, parseBackupFilename e.path = .ok info ∧ info.timestamp = timestamp) ∧
    matchTerms pattern.terms e.path.toList = true

/-- Neither later modified, nor modified at the same time with a later time in its name. -/
def NotNewer (other best : Entry) (otherTS bestTS : Instant) : Prop :=
  other.modTime ≤ best.modTime ∧
    (other.modTime = best.modTime → otherTS.after bestTS = false)

theorem NotNewer.refl (e : Entry) (timestamp : Instant) : NotNewer e e timestamp timestamp :=
  ⟨le_refl _, fun _ => by simp [Instant.after]⟩

theorem NotNewer.trans {a b c : Entry} {aTS bTS cTS : Instant} (first : NotNewer a b aTS bTS)
    (second : NotNewer b c bTS cTS) : NotNewer a c aTS cTS := by
  refine ⟨first.1.trans second.1, fun same => ?_⟩
  have sameFirst : a.modTime = b.modTime := le_antisymm first.1 (same ▸ second.1)
  have sameSecond : b.modTime = c.modTime := sameFirst.symm.trans same
  have one := first.2 sameFirst
  have two := second.2 sameSecond
  simp only [Instant.after, decide_eq_false_iff_not, not_lt] at one two ⊢
  exact one.trans two

/-! ### The loop -/

/-- What the loop keeps after some entries. -/
structure Newest (pattern : Pattern) (seen : List Entry) (best : Best) : Prop where
  found : ∀ e timestamp, best = some (e, timestamp) → e ∈ seen ∧ Candidate pattern e timestamp
  notNewer : ∀ e ∈ seen, ∀ timestamp, Candidate pattern e timestamp →
    ∃ kept keptTS, best = some (kept, keptTS) ∧ NotNewer e kept timestamp keptTS

/-- The entry that is kept is not older than the one before, nor than the new one. -/
theorem keepNewer_spec (best : Best) (e : Entry) (timestamp : Instant) :
    (keepNewer best e timestamp = (e, timestamp) ∨ best = some (keepNewer best e timestamp)) ∧
      NotNewer e (keepNewer best e timestamp).1 timestamp (keepNewer best e timestamp).2 ∧
      ∀ old oldTS, best = some (old, oldTS) →
        NotNewer old (keepNewer best e timestamp).1 oldTS (keepNewer best e timestamp).2 := by
  unfold keepNewer
  cases best with
  | none => exact ⟨.inl rfl, NotNewer.refl e timestamp, nofun⟩
  | some pair =>
    obtain ⟨old, oldTS⟩ := pair
    dsimp only
    split
    next newer =>
      refine ⟨.inl rfl, NotNewer.refl e timestamp, ?_⟩
      rintro _ _ ⟨⟩
      rcases newer with later | ⟨same, after⟩
      · exact ⟨later.le, fun same => absurd same later.ne⟩
      · refine ⟨same.ge, fun _ => ?_⟩
        simp only [Instant.after, decide_eq_true_eq, decide_eq_false_iff_not, not_lt] at after ⊢
        exact after.le
    next notNewer =>
      obtain ⟨notLater, notAfter⟩ := not_or.mp notNewer
      refine ⟨.inr rfl, ⟨not_lt.mp notLater, fun same => ?_⟩, ?_⟩
      · exact Bool.eq_false_iff.mpr fun after => notAfter ⟨same, after⟩
      · rintro _ _ ⟨⟩
        exact NotNewer.refl old oldTS

theorem Newest.skip {pattern : Pattern} {seen : List Entry} {best : Best}
    (newest : Newest pattern seen best) {e : Entry}
    (no : ∀ timestamp, ¬ Candidate pattern e timestamp) : Newest pattern (seen ++ [e]) best where
  found other timestamp isBest :=
    ⟨List.mem_append_left _ (newest.found other timestamp isBest).1,
      (newest.found other timestamp isBest).2⟩
  notNewer other mem timestamp candidate := by
    rcases List.mem_append.mp mem with earlier | last
    · exact newest.notNewer other earlier timestamp candidate
    · rw [List.mem_singleton.mp last] at candidate
      exact absurd candidate (no timestamp)

theorem Newest.keep {pattern : Pattern} {seen : List Entry} {best : Best}
    (newest : Newest pattern seen best) {e : Entry} {timestamp : Instant}
    (candidate : Candidate pattern e timestamp) :
    Newest pattern (seen ++ [e]) (some (keepNewer best e timestamp)) := by
  obtain ⟨either, notNewer, older⟩ := keepNewer_spec best e timestamp
  constructor
  · rintro kept keptTS isKept
    rcases either with isNew | isOld
    · rw [isNew] at isKept
      cases isKept
      exact ⟨List.mem_append_right _ (List.mem_singleton_self e), candidate⟩
    · obtain ⟨mem, isCandidate⟩ := newest.found kept keptTS (isOld.trans isKept)
      exact ⟨List.mem_append_left _ mem, isCandidate⟩
  · intro other mem otherTS otherCandidate
    refine ⟨_, _, rfl, ?_⟩
    rcases List.mem_append.mp mem with earlier | last
    · obtain ⟨old, oldTS, isOld, notNewerOld⟩ := newest.notNewer other earlier otherTS otherCandidate
      exact notNewerOld.trans (older old oldTS isOld)
    · rw [List.mem_singleton.mp last] at otherCandidate ⊢
      obtain ⟨⟨info, parsed, rfl⟩, -⟩ := candidate
      obtain ⟨⟨otherInfo, otherParsed, rfl⟩, -⟩ := otherCandidate
      rw [parsed] at otherParsed
      cases otherParsed
      exact notNewer

theorem resolveFrom_newest (pattern : Pattern) (rest : List Entry) {seen : List Entry} {best : Best}
    (newest : Newest pattern seen best) :
    ∃ last, resolveFrom pattern.text best rest = .ok last ∧ Newest pattern (seen ++ rest) last := by
  induction rest generalizing seen best with
  | nil => exact ⟨best, rfl, by rwa [List.append_nil]⟩
  | cons e rest ih =>
    have matched : tryMatch pattern.text e.path =
        some (matchTerms pattern.terms e.path.toList) := by
      rw [tryMatch, pattern.scanned, Option.map_some]
    have split : seen ++ e :: rest = (seen ++ [e]) ++ rest := by
      rw [List.append_assoc, List.singleton_append]
    rw [resolveFrom, split]
    cases parsed : parseBackupFilename e.path with
    | error err =>
      refine ih (newest.skip fun timestamp candidate => ?_)
      obtain ⟨info, isInfo, -⟩ := candidate.1
      rw [parsed] at isInfo
      cases isInfo
    | ok info =>
      dsimp only
      rw [matched]
      cases isMatch : matchTerms pattern.terms e.path.toList with
      | false =>
        refine ih (newest.skip fun timestamp candidate => ?_)
        have isTrue := candidate.2
        rw [isMatch] at isTrue
        cases isTrue
      | true => exact ih (newest.keep ⟨⟨info, parsed, rfl⟩, isMatch⟩)

end DbBackup.Runner.GlobFile
