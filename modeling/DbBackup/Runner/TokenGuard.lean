import Mathlib.Data.String.Basic

/-!
Owns the token of the databases a job names: `dbsToken` and `guardToken` of
`internal/scheduler/runner/filename.go`.

The guard tests the number of bytes and cuts after a number of characters. Contract:
`dbsToken_safe_iff`. A token comes back, and is short enough, exactly when the text is short or its
first 96 characters are there and take at most 111 bytes. Tokens of different texts differ, except
for long texts of the same hash.
-/

namespace DbBackup.Runner.TokenGuard

/-! ### The source -/

/-- `fnv.New32a`. -/
def fnv32a (bytes : List UInt8) : UInt32 :=
  bytes.foldl (fun sum b => (sum ^^^ b.toUInt32) * 16777619) 2166136261

def hash (tok : String) : UInt32 := fnv32a tok.toUTF8.toList

def hexDigits : List Char :=
  ['0', '1', '2', '3', '4', '5', '6', '7', '8', '9', 'a', 'b', 'c', 'd', 'e', 'f']

def hexDigit (n : Nat) : Char := hexDigits.getD (n % 16) '0'

/-- `%08x`. -/
def hex8 (n : Nat) : List Char :=
  [hexDigit (n / 16 ^ 7), hexDigit (n / 16 ^ 6), hexDigit (n / 16 ^ 5), hexDigit (n / 16 ^ 4),
    hexDigit (n / 16 ^ 3), hexDigit (n / 16 ^ 2), hexDigit (n / 16), hexDigit n]

def maxToken : Nat := 120

def keptRunes : Nat := 96

/-- `guardToken`; none is the panic of a slice that is out of range. -/
def guardToken (tok : String) : Option String :=
  if tok.utf8ByteSize ≤ maxToken then some tok
  else if tok.toList.length < keptRunes then none
  else some (String.ofList (tok.toList.take keptRunes) ++ "-" ++ String.ofList (hex8 (hash tok).toNat))

def replaced (c : Char) : Char := if c = ',' ∨ c = '/' ∨ c = '-' then '_' else c

/-- The names as they are joined and replaced. -/
def dbsText (included : List String) (dbName : String) : String :=
  let names := if 0 < included.length then ",".intercalate included else dbName
  String.ofList (names.toList.map replaced)

def dbsToken (included : List String) (dbName : String) : Option String :=
  guardToken (dbsText included dbName)

/-! ### Hashes -/

theorem hexDigit_inj {m n : Nat} (same : hexDigit m = hexDigit n) : m % 16 = n % 16 := by
  have table : (List.range 16).all (fun i => (List.range 16).all fun j =>
      hexDigits.getD i '0' != hexDigits.getD j '0' || i == j) = true := by decide
  have row := List.all_eq_true.mp table (m % 16) (List.mem_range.mpr (Nat.mod_lt _ (by decide)))
  have entry := List.all_eq_true.mp row (n % 16) (List.mem_range.mpr (Nat.mod_lt _ (by decide)))
  unfold hexDigit at same
  rw [same] at entry
  simpa using entry

theorem hex8_inj {m n : Nat} (mSmall : m < 2 ^ 32) (nSmall : n < 2 ^ 32)
    (same : hex8 m = hex8 n) : m = n := by
  -- Each digit lowers the power of 16 up to which the quotients agree.
  have step : ∀ k, m / 16 ^ (k + 1) = n / 16 ^ (k + 1) → m / 16 ^ k % 16 = n / 16 ^ k % 16 →
      m / 16 ^ k = n / 16 ^ k := by
    intro k higher digit
    rw [Nat.pow_succ, ← Nat.div_div_eq_div_mul, ← Nat.div_div_eq_div_mul] at higher
    omega
  have beyond : m / 16 ^ 8 = n / 16 ^ 8 := by omega
  unfold hex8 at same
  simp only [List.cons.injEq, and_true] at same
  obtain ⟨d7, d6, d5, d4, d3, d2, d1, d0⟩ := same
  have upper := step 4 (step 5 (step 6 (step 7 beyond (hexDigit_inj d7)) (hexDigit_inj d6))
    (hexDigit_inj d5)) (hexDigit_inj d4)
  have lower := step 1 (step 2 (step 3 upper (hexDigit_inj d3)) (hexDigit_inj d2))
    (by simpa using hexDigit_inj d1)
  simpa using step 0 lower (by simpa using hexDigit_inj d0)

theorem utf8Size_hexDigit (n : Nat) : (hexDigit n).utf8Size = 1 := by
  have table : (List.range 16).all (fun i => (hexDigits.getD i '0').utf8Size == 1) = true := by
    decide
  have entry := List.all_eq_true.mp table (n % 16) (List.mem_range.mpr (Nat.mod_lt _ (by decide)))
  exact beq_iff_eq.mp entry

/-- The digits take a byte each. -/
theorem size_hex8 (n : Nat) : (String.ofList (hex8 n)).utf8ByteSize = 8 := by
  simp [hex8, utf8Size_hexDigit]

/-! ### Tokens -/

theorem no_dash (included : List String) (dbName : String) :
    '-' ∉ (dbsText included dbName).toList := by
  unfold dbsText
  rw [String.toList_ofList]
  intro mem
  obtain ⟨c, -, same⟩ := List.mem_map.mp mem
  unfold replaced at same
  split at same
  · exact absurd same (by decide)
  · next other => exact other (.inr (.inr same))

/-- A text that the guard cuts well. -/
def Guardable (text : String) : Prop :=
  text.utf8ByteSize ≤ 120 ∨
    (96 ≤ text.toList.length ∧ (String.ofList (text.toList.take 96)).utf8ByteSize ≤ 111)

theorem guardToken_short_iff (text : String) :
    (∃ tok, guardToken text = some tok ∧ tok.utf8ByteSize ≤ 120) ↔ Guardable text := by
  unfold guardToken Guardable maxToken keptRunes
  by_cases short : text.utf8ByteSize ≤ 120
  · rw [if_pos short]
    exact ⟨fun _ => .inl short, fun _ => ⟨text, rfl, short⟩⟩
  · rw [if_neg short, or_iff_right short]
    by_cases few : text.toList.length < 96
    · rw [if_pos few]
      exact ⟨fun ⟨_, panics, _⟩ => (nomatch panics), fun both => absurd few (Nat.not_lt.mpr both.1)⟩
    · rw [if_neg few, and_iff_right (Nat.not_lt.mp few)]
      have dash : "-".utf8ByteSize = 1 := by decide
      constructor
      · rintro ⟨tok, same, small⟩
        cases same
        rw [String.utf8ByteSize_append, String.utf8ByteSize_append, size_hex8, dash] at small
        omega
      · intro small
        refine ⟨_, rfl, ?_⟩
        rw [String.utf8ByteSize_append, String.utf8ByteSize_append, size_hex8, dash]
        omega

theorem guardToken_cases {text tok : String} (isToken : guardToken text = some tok) :
    (text.utf8ByteSize ≤ 120 ∧ tok = text) ∨
      (120 < text.utf8ByteSize ∧ 96 ≤ text.toList.length ∧
        tok.toList = text.toList.take 96 ++ '-' :: hex8 (hash text).toNat) := by
  unfold guardToken maxToken keptRunes at isToken
  split at isToken
  next short => exact .inl ⟨short, (Option.some.inj isToken).symm⟩
  next long =>
    split at isToken
    next => cases isToken
    next many =>
      refine .inr ⟨Nat.not_le.mp long, Nat.not_lt.mp many, ?_⟩
      rw [← Option.some.inj isToken]
      simp

/-- Tokens of two texts without a dash are told apart, but by the hash alone when both are long. -/
theorem guardToken_inj {a b tok : String} (aPlain : '-' ∉ a.toList) (bPlain : '-' ∉ b.toList)
    (differ : a ≠ b) (aToken : guardToken a = some tok) (bToken : guardToken b = some tok) :
    120 < a.utf8ByteSize ∧ 120 < b.utf8ByteSize ∧ hash a = hash b := by
  have dashed {text : String} : '-' ∈ text.toList.take 96 ++ '-' :: hex8 (hash text).toNat :=
    List.mem_append_right _ List.mem_cons_self
  rcases guardToken_cases aToken with ⟨aShort, rfl⟩ | ⟨aLong, aMany, aShape⟩
  · rcases guardToken_cases bToken with ⟨bShort, same⟩ | ⟨bLong, bMany, bShape⟩
    · exact absurd same differ
    · exact absurd (bShape ▸ dashed) aPlain
  · rcases guardToken_cases bToken with ⟨bShort, rfl⟩ | ⟨bLong, bMany, bShape⟩
    · exact absurd (aShape ▸ dashed) bPlain
    · refine ⟨aLong, bLong, ?_⟩
      have lengths : (a.toList.take 96).length = (b.toList.take 96).length := by
        rw [List.length_take_of_le aMany, List.length_take_of_le bMany]
      have tails := (List.append_inj (aShape.symm.trans bShape) lengths).2
      have sameHex := (List.cons_eq_cons.mp tails).2
      exact UInt32.toNat_inj.mp (hex8_inj (hash a).toNat_lt (hash b).toNat_lt sameHex)

/-- A token comes back, is at most 120 bytes long, and is no other text's, unless both texts are
longer and have the same hash. -/
def TokenSafe (included : List String) (dbName : String) : Prop :=
  ∃ tok, dbsToken included dbName = some tok ∧ tok.utf8ByteSize ≤ 120 ∧
    ∀ others otherName, dbsText others otherName ≠ dbsText included dbName →
      dbsToken others otherName = some tok →
        120 < (dbsText others otherName).utf8ByteSize ∧
          120 < (dbsText included dbName).utf8ByteSize ∧
          hash (dbsText others otherName) = hash (dbsText included dbName)

theorem dbsToken_safe_iff (included : List String) (dbName : String) :
    TokenSafe included dbName ↔ Guardable (dbsText included dbName) := by
  rw [← guardToken_short_iff]
  constructor
  · rintro ⟨tok, isToken, small, -⟩
    exact ⟨tok, isToken, small⟩
  · rintro ⟨tok, isToken, small⟩
    refine ⟨tok, isToken, small, fun others otherName differ otherToken => ?_⟩
    exact guardToken_inj (no_dash _ _) (no_dash _ _) differ otherToken isToken

/-- Forty-one names of one three-byte letter are 123 bytes in fewer than 96 letters. -/
theorem wide_letters_panic : dbsToken [String.ofList (List.replicate 41 '\u65e5')] "" = none ∧
    ¬ TokenSafe [String.ofList (List.replicate 41 '\u65e5')] "" := by
  have panics : dbsToken [String.ofList (List.replicate 41 '\u65e5')] "" = none := by
    have wide : ¬ (String.ofList (List.replicate 41 '\u65e5')).utf8ByteSize ≤ maxToken := by
      rw [String.utf8ByteSize_ofList]
      decide
    have text : dbsText [String.ofList (List.replicate 41 '\u65e5')] "" =
        String.ofList (List.replicate 41 '\u65e5') := by
      simp only [dbsText, List.length_singleton, Nat.zero_lt_one, if_true,
        String.intercalate_singleton, String.toList_ofList, List.map_replicate]
      rfl
    unfold dbsToken
    rw [text, guardToken, if_neg wide, String.toList_ofList, List.length_replicate]
    rfl
  refine ⟨panics, ?_⟩
  rintro ⟨tok, isToken, -⟩
  rw [panics] at isToken
  cases isToken

end DbBackup.Runner.TokenGuard
