import DbBackup.Lib.Scan
import DbBackup.Lib.Sorting
import Mathlib.Data.List.GetD
import Mathlib.Data.String.Basic
import Mathlib.Order.PiLex
import Mathlib.Order.WithBot
import Mathlib.Data.Prod.Lex

/-!
Owns the comparison of versions: `IsNewer`, `compareCores` and `splitVersion` of
`internal/stats/version_compare.go`.

Contract: `isNewer_strictWeak`. On the versions that `splitVersion` accepts, `isNewer` compares a
key in a linear order (`isNewer_iff_key`): the numbers of the core, followed by zeros without end,
and then the tag, where no tag is above every tag.

Does not own how letters are lowered or folded (`Unicode`).
-/

set_option linter.all false

namespace DbBackup.Stats.VersionCompare

open Lib.GoString Lib.Scan Lib.Sorting

/-! ### The source -/

structure Unicode where
  toLower : Char → Char
  equalFold : String → String → Bool

variable (unicode : Unicode)

/-- `strings.ToLower(strings.TrimSpace(v))`. -/
def lowered (v : String) : String := String.ofList ((trimSpace v).toList.map unicode.toLower)

def inCore (c : Char) : Bool := c = '.' || ('0' ≤ c && c ≤ '9')

/-- `strings.Split(core, ".")`. -/
def segments (core : String) : List String := (core.toList.splitOn '.').map String.ofList

def splitVersion (v : String) : Option (String × String) :=
  let chars := (lowered unicode v).toList
  let core := String.ofList (chars.takeWhile inCore)
  let tag := String.ofList (chars.dropWhile inCore)
  if core = "" || hasPrefix core "." || hasSuffix core "." || contains core ".." then none
  else if (segments core).all fun seg => (atoi seg).2 then some (core, tag)
  else none

/-- The number of a segment, or zero behind the last one. -/
def segmentAt (segs : List String) (i : Nat) : Int :=
  match segs[i]? with
  | some seg => (atoi seg).1
  | none => 0

/-- The loop of `compareCores` from a segment on, with the number of turns left. -/
def compareFrom (as bs : List String) (i : Nat) : Nat → Int
  | 0 => 0
  | left + 1 =>
    if segmentAt as i < segmentAt bs i then -1
    else if segmentAt bs i < segmentAt as i then 1
    else compareFrom as bs (i + 1) left

def compareCores (a b : String) : Int :=
  compareFrom (segments a) (segments b) 0 (max (segments a).length (segments b).length)

def branchPrefixes : List String :=
  ["develop-", "develop_", "dev-", "dev_", "beta-", "beta_", "edge-", "edge_", "alpha-", "alpha_",
    "rc-", "rc_"]

def isBranchVersion (v : String) : Bool := branchPrefixes.any (hasPrefix (lowered unicode v))

def isNewer (current candidate : String) : Bool :=
  match splitVersion unicode current, splitVersion unicode candidate with
  | some (curCore, curTag), some (candCore, candTag) =>
    if compareCores curCore candCore = 1 then false
    else if compareCores curCore candCore = -1 then true
    else if curTag = "" ∧ candTag ≠ "" then false
    else if curTag ≠ "" ∧ candTag = "" then true
    else decide (curTag < candTag)
  | _, _ =>
    if isBranchVersion unicode current then
      !unicode.equalFold (trimSpace current) (trimSpace candidate)
    else false

/-! ### The key -/

/-- The numbers of a core, with zeros behind the last. -/
def paddedCore (core : String) : Lex (Nat → Int) := toLex (segmentAt (segments core))

/-- A release stands above its tagged versions. -/
def tagRank (tag : String) : WithTop String := if tag = "" then ⊤ else tag

def versionKey (parts : String × String) : Lex (Nat → Int) ×ₗ WithTop String :=
  toLex (paddedCore parts.1, tagRank parts.2)

theorem segmentAt_eq_zero {segs : List String} {i : Nat} (beyond : segs.length ≤ i) :
    segmentAt segs i = 0 := by
  unfold segmentAt
  rw [List.getElem?_eq_none beyond]

/-- What the result of a comparison says about the order. -/
def Orders {α : Type} [LT α] (result : Int) (a b : α) : Prop :=
  (result = -1 ∧ a < b) ∨ (result = 1 ∧ b < a) ∨ (result = 0 ∧ a = b)

/-- The loop from a segment on decides the order of cores that agree before it. -/
theorem compareFrom_orders {as bs : List String} (left : Nat) {i : Nat}
    (before : ∀ j < i, segmentAt as j = segmentAt bs j)
    (enough : max as.length bs.length ≤ i + left) :
    Orders (compareFrom as bs i left) (toLex (segmentAt as)) (toLex (segmentAt bs)) := by
  induction left generalizing i with
  | zero =>
    refine .inr (.inr ⟨rfl, congrArg toLex (funext fun j => ?_)⟩)
    by_cases inside : j < i
    · exact before j inside
    · have behind : max as.length bs.length ≤ j := by omega
      rw [segmentAt_eq_zero (le_of_max_le_left behind),
        segmentAt_eq_zero (le_of_max_le_right behind)]
  | succ left ih =>
    rw [compareFrom]
    by_cases less : segmentAt as i < segmentAt bs i
    · rw [if_pos less]
      exact .inl ⟨rfl, i, before, less⟩
    · rw [if_neg less]
      by_cases more : segmentAt bs i < segmentAt as i
      · rw [if_pos more]
        exact .inr (.inl ⟨rfl, i, fun j inside => (before j inside).symm, more⟩)
      · rw [if_neg more]
        refine ih (fun j inside => ?_) (by omega)
        rcases Nat.lt_succ_iff_lt_or_eq.mp inside with earlier | rfl
        · exact before j earlier
        · exact le_antisymm (not_lt.mp more) (not_lt.mp less)

theorem compareCores_orders (a b : String) :
    Orders (compareCores a b) (paddedCore a) (paddedCore b) :=
  compareFrom_orders _ (fun _ inside => absurd inside (Nat.not_lt_zero _)) (by omega)

theorem tagRank_lt_iff (curTag candTag : String) : tagRank curTag < tagRank candTag ↔
    ¬ (curTag = "" ∧ candTag ≠ "") ∧ ((curTag ≠ "" ∧ candTag = "") ∨ curTag < candTag) := by
  unfold tagRank
  by_cases curEmpty : curTag = ""
  · by_cases candEmpty : candTag = ""
    · rw [if_pos curEmpty, if_pos candEmpty, curEmpty, candEmpty]
      simp
    · rw [if_pos curEmpty, if_neg candEmpty]
      simp [curEmpty, candEmpty]
  · rw [if_neg curEmpty]
    by_cases candEmpty : candTag = ""
    · rw [if_pos candEmpty]
      simp [curEmpty, candEmpty]
    · rw [if_neg candEmpty, WithTop.coe_lt_coe]
      simp [curEmpty, candEmpty]

/-- On accepted versions `isNewer` compares keys. -/
theorem isNewer_iff_key {current candidate : String} {cur cand : String × String}
    (isCurrent : splitVersion unicode current = some cur)
    (isCandidate : splitVersion unicode candidate = some cand) :
    isNewer unicode current candidate = true ↔ versionKey cur < versionKey cand := by
  obtain ⟨curCore, curTag⟩ := cur
  obtain ⟨candCore, candTag⟩ := cand
  unfold isNewer versionKey
  rw [isCurrent, isCandidate, Prod.Lex.toLex_lt_toLex]
  dsimp only
  rcases compareCores_orders curCore candCore with
    ⟨result, below⟩ | ⟨result, above⟩ | ⟨result, same⟩
  · rw [result, if_neg (by decide), if_pos rfl]
    exact ⟨fun _ => .inl below, fun _ => rfl⟩
  · rw [result, if_pos rfl]
    refine ⟨nofun, fun either => absurd either ?_⟩
    rintro (below | ⟨same, -⟩)
    · exact lt_asymm above below
    · exact above.ne' same
  · rw [result, if_neg (by decide), if_neg (by decide), tagRank_lt_iff]
    have equalCores : ¬ paddedCore curCore < paddedCore candCore := same ▸ lt_irrefl _
    rw [or_iff_right equalCores, and_iff_right same]
    by_cases release : curTag = "" ∧ candTag ≠ ""
    · rw [if_pos release]
      exact ⟨nofun, fun both => absurd release both.1⟩
    · rw [if_neg release, and_iff_right release]
      by_cases released : curTag ≠ "" ∧ candTag = ""
      · rw [if_pos released]
        exact ⟨fun _ => .inl released, fun _ => rfl⟩
      · rw [if_neg released, decide_eq_true_eq, or_iff_right released]

/-! ### Accepted versions -/

/-- A version that `splitVersion` accepts. -/
structure Version where
  text : String
  core : String
  tag : String
  accepted : splitVersion unicode text = some (core, tag)

def Newer (current candidate : Version unicode) : Prop :=
  isNewer unicode current.text candidate.text = true

/-- The numbers of a version. -/
def Version.numbers {unicode : Unicode} (v : Version unicode) : List Int :=
  (segments v.core).map fun seg => (atoi seg).1

theorem segmentAt_eq_getD (segs : List String) (i : Nat) :
    segmentAt segs i = (segs.map fun seg => (atoi seg).1).getD i 0 := by
  unfold segmentAt
  rw [List.getD_eq_getElem?_getD, List.getElem?_map]
  cases segs[i]? <;> rfl

theorem paddedCore_of_zeros {unicode : Unicode} {u v : Version unicode} {zeros : Nat}
    (longer : v.numbers = u.numbers ++ List.replicate zeros 0) :
    paddedCore v.core = paddedCore u.core := by
  refine congrArg toLex (funext fun i => ?_)
  rw [segmentAt_eq_getD, segmentAt_eq_getD]
  change v.numbers.getD i 0 = u.numbers.getD i 0
  rw [longer]
  rcases Nat.lt_or_ge i u.numbers.length with inside | beyond
  · rw [List.getD_append _ _ _ _ inside]
  · rw [List.getD_append_right _ _ _ _ beyond, List.getD_eq_default _ _ beyond,
      List.getD_eq_getElem?_getD, List.getElem?_replicate]
    split <;> rfl

end DbBackup.Stats.VersionCompare
