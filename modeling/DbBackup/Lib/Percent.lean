import Mathlib.Data.List.Basic

/-!
Owns percent-encoding: a character that is not kept is written as its UTF-8
bytes, each as a percent sign and two hexadecimal digits.

Contract: what is read from an encoded text are the bytes of the text
(`unescape_escape`), and texts with the same bytes are the same (`bytes_inj`). A text
is the encoding of what is read from it part by part (`escapeBytes_append_eq_iff`).
-/

set_option linter.all false

namespace DbBackup.Lib.Percent

def hexDigit (n : Nat) : Char := if n < 10 then Char.ofNat (48 + n) else Char.ofNat (55 + n)

def hexValue (c : Char) : Option Nat :=
  if c.isDigit then some (c.toNat - 48)
  else if 'A' ≤ c ∧ c ≤ 'F' then some (c.toNat - 55)
  else if 'a' ≤ c ∧ c ≤ 'f' then some (c.toNat - 87)
  else none

def escapeByte (byte : UInt8) : List Char :=
  ['%', hexDigit (byte.toNat / 16), hexDigit (byte.toNat % 16)]

def escapeChar (keep : Char → Bool) (c : Char) : List Char :=
  if keep c then [c] else (String.utf8EncodeChar c).flatMap escapeByte

def escape (keep : Char → Bool) (text : List Char) : List Char := text.flatMap (escapeChar keep)

def bytes (text : List Char) : List UInt8 := text.flatMap String.utf8EncodeChar

/-- The bytes an encoded text stands for; `none` where a percent sign has no two
digits behind it. -/
def unescape : List Char → Option (List UInt8)
  | [] => some []
  | '%' :: high :: low :: rest => do
      let first ← hexValue high
      let second ← hexValue low
      let more ← unescape rest
      pure (UInt8.ofNat (16 * first + second) :: more)
  | c :: rest => if c = '%' then none else (unescape rest).map (String.utf8EncodeChar c ++ ·)

theorem hexValue_hexDigit {n : Nat} (small : n < 16) : hexValue (hexDigit n) = some n := by
  have all : ∀ m : Fin 16, hexValue (hexDigit m) = some m.val := by decide
  exact all ⟨n, small⟩

theorem unescape_escapeByte (byte : UInt8) (rest : List Char) :
    unescape (escapeByte byte ++ rest) = (unescape rest).map (byte :: ·) := by
  have small : byte.toNat < 256 := UInt8.toNat_lt byte
  have whole : UInt8.ofNat (16 * (byte.toNat / 16) + byte.toNat % 16) = byte := by
    rw [Nat.div_add_mod]
    exact UInt8.ofNat_toNat
  show unescape ('%' :: hexDigit (byte.toNat / 16) :: hexDigit (byte.toNat % 16) :: rest) = _
  rw [unescape, hexValue_hexDigit (by omega), hexValue_hexDigit (by omega)]
  cases unescape rest with
  | none => rfl
  | some more =>
    show some (UInt8.ofNat (16 * (byte.toNat / 16) + byte.toNat % 16) :: more) = _
    rw [whole]
    rfl

theorem unescape_of_ne {c : Char} (plain : c ≠ '%') (rest : List Char) :
    unescape (c :: rest) = (unescape rest).map (String.utf8EncodeChar c ++ ·) := by
  rw [unescape, if_neg plain]
  intro high low others same
  exact absurd same plain

theorem unescape_escapeBytes (word : List UInt8) (rest : List Char) :
    unescape (word.flatMap escapeByte ++ rest) = (unescape rest).map (word ++ ·) := by
  induction word with
  | nil => simp
  | cons byte word ih =>
    rw [List.flatMap_cons, List.append_assoc, unescape_escapeByte, ih,
      Option.map_map]
    rfl

/-- The bytes of a text are read from its encoding. -/
theorem unescape_escape {keep : Char → Bool} (noPercent : keep '%' = false) (text : List Char) :
    unescape (escape keep text) = some (bytes text) := by
  induction text with
  | nil => rfl
  | cons c text ih =>
    have step : escape keep (c :: text) = escapeChar keep c ++ escape keep text := rfl
    have whole : bytes (c :: text) = String.utf8EncodeChar c ++ bytes text := rfl
    rw [step, whole, escapeChar]
    by_cases kept : keep c = true
    · have plain : c ≠ '%' := by
        rintro rfl
        rw [noPercent] at kept
        cases kept
      rw [if_pos kept, List.singleton_append, unescape_of_ne plain, ih]
      rfl
    · rw [if_neg kept, unescape_escapeBytes, ih]
      rfl

theorem escape_append (keep : Char → Bool) (first second : List Char) :
    escape keep (first ++ second) = escape keep first ++ escape keep second :=
  List.flatMap_append

theorem length_le_escape (keep : Char → Bool) (text : List Char) :
    text.length ≤ (escape keep text).length := by
  induction text with
  | nil => exact Nat.le_refl 0
  | cons c text ih =>
    have step : escape keep (c :: text) = escapeChar keep c ++ escape keep text := rfl
    have notEmpty : 0 < (escapeChar keep c).length := by
      unfold escapeChar
      split
      · exact Nat.zero_lt_one
      · have coded := Char.utf8Size_pos c
        rw [← String.length_utf8EncodeChar] at coded
        cases shape : String.utf8EncodeChar c with
        | nil => simp [shape] at coded
        | cons byte others => simp [escapeByte]
    rw [step, List.length_append, List.length_cons]
    omega

theorem mem_escapeByte {byte : UInt8} {c : Char} (member : c ∈ escapeByte byte) :
    c ∈ "%0123456789ABCDEF".toList := by
  have digits : ∀ n : Fin 16, hexDigit n ∈ "%0123456789ABCDEF".toList := by decide
  have small : byte.toNat < 256 := UInt8.toNat_lt byte
  rw [escapeByte, List.mem_cons, List.mem_cons, List.mem_singleton] at member
  rcases member with rfl | rfl | rfl
  · decide
  · exact digits ⟨byte.toNat / 16, by omega⟩
  · exact digits ⟨byte.toNat % 16, by omega⟩

variable {text : List Char}

/-- A character of an encoded text is one that was kept, or belongs to a code. -/
theorem mem_escape {keep : Char → Bool} {c : Char} (member : c ∈ escape keep text) :
    (c ∈ text ∧ keep c = true) ∨ c ∈ "%0123456789ABCDEF".toList := by
  obtain ⟨original, inText, inCode⟩ := List.mem_flatMap.mp member
  unfold escapeChar at inCode
  split at inCode
  · rename_i kept
    rw [List.mem_singleton] at inCode
    rw [inCode]
    exact .inl ⟨inText, kept⟩
  · obtain ⟨byte, -, inByte⟩ := List.mem_flatMap.mp inCode
    exact .inr (mem_escapeByte inByte)

theorem unescape_append_plain (plain : '%' ∉ text) (rest : List Char) :
    unescape (text ++ rest) = (unescape rest).map (bytes text ++ ·) := by
  induction text with
  | nil => simp [bytes]
  | cons c text ih =>
    rw [List.mem_cons, not_or] at plain
    rw [List.cons_append, unescape_of_ne (Ne.symm plain.1), ih plain.2,
      Option.map_map]
    congr 1
    funext more
    simp [bytes]

theorem bytes_inj {first second : List Char} : bytes first = bytes second ↔ first = second := by
  constructor
  · intro same
    apply String.ofList_injective
    exact String.toByteArray_inj.mp (congrArg List.toByteArray same)
  · rintro rfl
    rfl

/-! ### Encoding bytes -/

def escapeBytes (keep : Char → Bool) (word : List UInt8) : List Char :=
  word.flatMap fun byte =>
    if keep (Char.ofNat byte.toNat) then [Char.ofNat byte.toNat] else escapeByte byte

/-- No character is kept that is more than one byte. -/
def KeepsAscii (keep : Char → Bool) : Prop := ∀ c, keep c = true → c.toNat < 128

theorem escapeBytes_append (keep : Char → Bool) (first second : List UInt8) :
    escapeBytes keep (first ++ second) = escapeBytes keep first ++ escapeBytes keep second :=
  List.flatMap_append

theorem utf8EncodeChar_of_ascii {c : Char} (ascii : c.toNat < 128) :
    String.utf8EncodeChar c = [UInt8.ofNat c.toNat] := by
  unfold String.utf8EncodeChar
  rw [if_pos (show c.val.toNat ≤ 0x7f by unfold Char.toNat at ascii; omega)]
  rfl

theorem le_of_mem_utf8EncodeChar {c : Char} (wide : ¬ c.toNat < 128) {byte : UInt8}
    (member : byte ∈ String.utf8EncodeChar c) : 128 ≤ byte.toNat := by
  unfold String.utf8EncodeChar at member
  unfold Char.toNat at wide
  rw [if_neg (by omega)] at member
  split at member
  · simp only [List.mem_cons, List.not_mem_nil, or_false] at member
    rcases member with rfl | rfl <;> rw [UInt8.toNat_ofNat'] <;> omega
  · split at member
    · simp only [List.mem_cons, List.not_mem_nil, or_false] at member
      rcases member with rfl | rfl | rfl <;> rw [UInt8.toNat_ofNat'] <;> omega
    · simp only [List.mem_cons, List.not_mem_nil, or_false] at member
      rcases member with rfl | rfl | rfl | rfl <;> rw [UInt8.toNat_ofNat'] <;> omega

theorem toNat_ofNat_byte (byte : UInt8) : (Char.ofNat byte.toNat).toNat = byte.toNat := by
  have all : ∀ n : Fin 256, (Char.ofNat n).toNat = n.val := by decide +kernel
  exact all ⟨byte.toNat, UInt8.toNat_lt byte⟩

theorem escapeBytes_utf8EncodeChar {keep : Char → Bool} (ascii : KeepsAscii keep) (c : Char) :
    escapeBytes keep (String.utf8EncodeChar c) = escapeChar keep c := by
  unfold escapeBytes escapeChar
  by_cases small : c.toNat < 128
  · have same : Char.ofNat (UInt8.ofNat c.toNat).toNat = c := by
      rw [UInt8.toNat_ofNat', Nat.mod_eq_of_lt (by omega)]
      exact Char.ofNat_toNat c
    rw [utf8EncodeChar_of_ascii small, List.flatMap_singleton, List.flatMap_singleton, same]
  · have notKept : keep c = false := by
      cases kept : keep c with
      | false => rfl
      | true => exact absurd (ascii c kept) small
    rw [notKept, if_neg (by simp)]
    apply List.flatMap_congr
    intro byte member
    have high := le_of_mem_utf8EncodeChar small member
    have notKeptByte : keep (Char.ofNat byte.toNat) = false := by
      cases kept : keep (Char.ofNat byte.toNat) with
      | false => rfl
      | true =>
        have less := ascii _ kept
        rw [toNat_ofNat_byte] at less
        omega
    rw [notKeptByte, if_neg (by simp)]

theorem escapeBytes_bytes {keep : Char → Bool} (ascii : KeepsAscii keep) (text : List Char) :
    escapeBytes keep (bytes text) = escape keep text := by
  induction text with
  | nil => rfl
  | cons c text ih =>
    have whole : bytes (c :: text) = String.utf8EncodeChar c ++ bytes text := rfl
    rw [whole, escapeBytes_append, escapeBytes_utf8EncodeChar ascii, ih]
    rfl

variable {read : List UInt8}

/-- A code is read when both digits are. -/
theorem unescape_code {high low : Char}
    (readable : unescape ('%' :: high :: low :: text) = some read) :
    ∃ first second more, hexValue high = some first ∧ hexValue low = some second ∧
      unescape text = some more ∧ read = UInt8.ofNat (16 * first + second) :: more := by
  rw [unescape] at readable
  cases isFirst : hexValue high with
  | none => simp [isFirst] at readable
  | some first =>
    cases isSecond : hexValue low with
    | none => simp [isFirst, isSecond] at readable
    | some second =>
      cases isMore : unescape text with
      | none => simp [isFirst, isSecond, isMore] at readable
      | some more =>
        rw [isFirst, isSecond, isMore] at readable
        exact ⟨first, second, more, rfl, rfl, rfl, (Option.some.inj readable).symm⟩

theorem unescape_plain {c : Char} (plain : c ≠ '%') (readable : unescape (c :: text) = some read) :
    ∃ more, unescape text = some more ∧ read = String.utf8EncodeChar c ++ more := by
  rw [unescape_of_ne plain] at readable
  obtain ⟨more, isMore, same⟩ := Option.map_eq_some_iff.mp readable
  exact ⟨more, isMore, same.symm⟩

theorem unescape_append (readable : unescape text = some read)
    (rest : List Char) : unescape (text ++ rest) = (unescape rest).map (read ++ ·) := by
  induction text using unescape.induct generalizing read with
  | case1 =>
    cases readable
    simp
  | case2 high low text ih =>
    obtain ⟨first, second, more, isFirst, isSecond, isMore, rfl⟩ := unescape_code readable
    simp only [List.cons_append]
    rw [unescape, isFirst, isSecond, ih isMore]
    cases unescape rest <;> rfl
  | case3 text short =>
    rw [unescape, if_pos rfl] at readable
    · cases readable
    · exact short
  | case4 c text _ plain ih =>
    obtain ⟨more, isMore, rfl⟩ := unescape_plain plain readable
    rw [List.cons_append, unescape_of_ne plain, ih isMore, Option.map_map]
    cases unescape rest <;> simp

theorem escapeBytes_cons_eq_code {keep : Char → Bool} (noPercent : keep '%' = false) (byte : UInt8)
    (word : List UInt8) (high low : Char) (tail : List Char) :
    escapeBytes keep (byte :: word) = '%' :: high :: low :: tail ↔
      (keep (Char.ofNat byte.toNat) = false ∧ escapeByte byte = ['%', high, low]) ∧
        escapeBytes keep word = tail := by
  have step : escapeBytes keep (byte :: word) =
      (if keep (Char.ofNat byte.toNat) then [Char.ofNat byte.toNat] else escapeByte byte) ++
        escapeBytes keep word := rfl
  rw [step]
  cases kept : keep (Char.ofNat byte.toNat) with
  | true =>
    rw [if_pos rfl, List.singleton_append, List.cons.injEq]
    constructor
    · rintro ⟨isPercent, _⟩
      rw [isPercent, noPercent] at kept
      cases kept
    · rintro ⟨⟨notKept, _⟩, _⟩
      cases notKept
  | false => simp [escapeByte, and_assoc]

theorem escapeChar_eq_code {keep : Char → Bool} {c : Char} (notKept : keep c = false) :
    ∃ tail, escapeChar keep c = '%' :: tail := by
  rw [escapeChar, notKept, if_neg (by simp)]
  cases coded : String.utf8EncodeChar c with
  | nil => exact absurd coded String.utf8EncodeChar_ne_nil
  | cons byte others => exact ⟨_, rfl⟩

/-- Two encodings of a text are the same when both keep the same characters of it. -/
theorem escape_eq_iff {keep other : Char → Bool} (noPercent : keep '%' = false)
    (otherNoPercent : other '%' = false) (text : List Char) :
    escape keep text = escape other text ↔ ∀ c ∈ text, keep c = other c := by
  induction text with
  | nil => simp [escape]
  | cons c text ih =>
    have step (kept : Char → Bool) : escape kept (c :: text) = escapeChar kept c ++ escape kept text :=
      rfl
    rw [step, step, List.forall_mem_cons]
    have differs {kept lost : Char → Bool} (keeps : kept c = true) (loses : lost c = false)
        (percent : kept '%' = false) (first second : List Char) :
        escapeChar kept c ++ first ≠ escapeChar lost c ++ second := by
      obtain ⟨tail, coded⟩ := escapeChar_eq_code loses
      rw [coded, escapeChar, if_pos keeps]
      intro same
      have isPercent : c = '%' := (List.cons.inj same).1
      rw [isPercent, percent] at keeps
      cases keeps
    cases kept : keep c with
    | true =>
      cases otherKept : other c with
      | true =>
        rw [escapeChar, escapeChar, if_pos kept, if_pos otherKept, List.append_cancel_left_eq,
          ih]
        simp
      | false => simpa using differs kept otherKept noPercent _ _
    | false =>
      cases otherKept : other c with
      | true => simpa using (differs otherKept kept otherNoPercent _ _).symm
      | false =>
        rw [escapeChar, escapeChar, kept, otherKept, List.append_cancel_left_eq,
          ih]
        simp

/-- A text with a readable beginning is the encoding of its bytes exactly when both parts are: an
encoding differs from a text in the first place where a character or a code of it differs. -/
theorem escapeBytes_append_eq_iff {keep : Char → Bool} (ascii : KeepsAscii keep)
    (noPercent : keep '%' = false)
    (readable : unescape text = some read) (others : List UInt8) (rest : List Char) :
    escapeBytes keep (read ++ others) = text ++ rest ↔
      escapeBytes keep read = text ∧ escapeBytes keep others = rest := by
  induction text using unescape.induct generalizing read with
  | case1 =>
    cases readable
    simp [escapeBytes]
  | case2 high low text ih =>
    obtain ⟨first, second, more, isFirst, isSecond, isMore, rfl⟩ := unescape_code readable
    simp only [List.cons_append]
    rw [escapeBytes_cons_eq_code noPercent, escapeBytes_cons_eq_code noPercent, ih isMore]
    exact and_assoc.symm
  | case3 text short =>
    rw [unescape, if_pos rfl] at readable
    · cases readable
    · exact short
  | case4 c text _ plain ih =>
    obtain ⟨more, isMore, rfl⟩ := unescape_plain plain readable
    rw [List.append_assoc, escapeBytes_append, escapeBytes_append keep _ more,
      escapeBytes_utf8EncodeChar ascii, List.cons_append]
    cases kept : keep c with
    | true =>
      rw [escapeChar, if_pos kept, List.singleton_append, List.singleton_append,
        List.cons.injEq, List.cons.injEq, ih isMore, and_assoc]
    | false =>
      obtain ⟨tail, coded⟩ := escapeChar_eq_code kept
      rw [coded, List.cons_append, List.cons_append, List.cons.injEq, List.cons.injEq]
      have differs : ¬ '%' = c := Ne.symm plain
      simp [differs]

end DbBackup.Lib.Percent
