import DbBackup.Pipeline.Openssl

/-!
Owns what the reader of an OpenSSL backup makes of any bytes behind the header and the salt.

The reader takes the end of the source for the end of the last block, wherever it comes, and looks
at the last byte of the padding only (`ends_in`). Contract: `refusesDamage_iff`. A damaged
ciphertext is refused exactly when it has a whole block and the last of them, decrypted, ends in a
byte that is no length of a padding.
-/

set_option linter.all false

namespace DbBackup.Pipeline.Openssl

open Lib Lib.ShortReads

/-! ### The last block -/

/-- The last whole block, decrypted. -/
def lastPlain (cipher : Equiv.Perm Block) (iv : Block) (body : Bytes) : Option Block :=
  if body.length < blockSize then none
  else if body.length < 2 * blockSize then
    some (Cbc.decryptBlock cipher iv (Cbc.toBlock blockSize body))
  else lastPlain cipher (Cbc.toBlock blockSize body) (body.drop blockSize)
termination_by body.length
decreasing_by
  rw [List.length_drop]
  unfold blockSize at *
  omega

def padByte (plain : Block) : Nat := (plain.toList.getLastD 0).toNat

/-- What a padded ciphertext is: whole blocks, of which the last ends in `p` bytes of value `p`. -/
def ValidPadded (cipher : Equiv.Perm Block) (iv : Block) (body : Bytes) : Prop :=
  0 < body.length ∧ blockSize ∣ body.length ∧ ∃ plain, lastPlain cipher iv body = some plain ∧
    ∃ p, 1 ≤ p ∧ p ≤ blockSize ∧ List.replicate p (UInt8.ofNat p) <:+ plain.toList

/-- The last whole block does not end in the length of a padding. -/
def Detected (cipher : Equiv.Perm Block) (iv : Block) (body : Bytes) : Prop :=
  ∃ plain, lastPlain cipher iv body = some plain ∧
    (padByte plain < 1 ∨ padByte plain > blockSize)

/-- How reading ends. -/
def ending (cipher : Equiv.Perm Block) (iv : Block) (body : Bytes) : Outcome :=
  match lastPlain cipher iv body with
  | none => .eof
  | some plain =>
    if padByte plain < 1 ∨ padByte plain > blockSize then .failed .invalidPadding else .eof

/-! ### Calls of Read -/

namespace BlockReader

/-- Some calls give data, and the next one this. -/
def Ends (r : BlockReader) (sizes : Nat → Nat) (final : Outcome) : Prop :=
  ∃ n, (∀ i < n, ∃ bytes, r.outcome sizes i = .data bytes) ∧ r.outcome sizes n = final

variable {final : Outcome}

theorem ends_of_first {r : BlockReader} {sizes : Nat → Nat}
    (first : (r.read (sizes 0)).2 = final) : r.Ends sizes final :=
  ⟨0, fun i below => absurd below (Nat.not_lt_zero i), first⟩

theorem ends_of_data {r next : BlockReader} {sizes : Nat → Nat} {bytes : Bytes}
    (first : r.read (sizes 0) = (next, .data bytes))
    (ends : next.Ends (fun i => sizes (i + 1)) final) : r.Ends sizes final := by
  obtain ⟨n, gives, isFinal⟩ := ends
  have shifted : ∀ i, r.outcome sizes (i + 1) = next.outcome (fun i => sizes (i + 1)) i := by
    intro i
    rw [outcome, outcome, after_shift, first]
  refine ⟨n + 1, fun i below => ?_, by rw [shifted, isFinal]⟩
  cases i with
  | zero => exact ⟨bytes, by rw [outcome, after, first]⟩
  | succ i =>
    rw [shifted]
    exact gives i (by omega)

theorem ends_congr {r other : BlockReader} {sizes : Nat → Nat}
    (same : r.read (sizes 0) = other.read (sizes 0)) (ends : other.Ends sizes final) :
    r.Ends sizes final := by
  obtain ⟨n, gives, isFinal⟩ := ends
  have sameOutcome : ∀ i, r.outcome sizes i = other.outcome sizes i := by
    intro i
    cases i with
    | zero => rw [outcome, outcome, after, after, same]
    | succ i => rw [outcome, outcome, after_shift, after_shift, same]
  exact ⟨n, fun i below => sameOutcome i ▸ gives i below, sameOutcome n ▸ isFinal⟩

theorem read_of_fault {r after : BlockReader} {fault : Fault} (nothing : r.cur.length = 0)
    (goesOn : r.eof = false) (refilled : r.refill = (after, some fault)) (size : Nat) :
    (r.read size).2 = .failed fault := by
  rw [read, if_pos nothing, if_neg (by rw [goesOn]; decide)]
  split
  next shape =>
    rw [refilled] at shape
    cases shape
    rfl
  next shape =>
    rw [refilled] at shape
    cases shape

theorem ends_of_eof {r : BlockReader} (ended : r.eof = true) {sizes : Nat → Nat}
    (positive : ∀ i, 0 < sizes i) : r.Ends sizes .eof := by
  induction length : r.cur.length using Nat.strongRecOn generalizing r sizes with
  | _ _ ih =>
    by_cases nothing : r.cur.length = 0
    · exact ends_of_first (by rw [read, if_pos nothing, if_pos ended])
    · refine ends_of_data (by rw [read, if_neg nothing]) ?_
      have endedNext : ({ r with cur := r.cur.drop (sizes 0) } : BlockReader).eof = true := ended
      refine ih _ ?_ endedNext (fun i => positive (i + 1)) rfl
      rw [List.length_drop]
      have := positive 0
      omega

/-- The reader has these bytes of ciphertext before it. -/
structure Awaits (r : BlockReader) (body : Bytes) : Prop where
  goesOn : r.eof = false
  next : r.next = none ∨ ∃ block : Block, r.next = some block.toList
  rest : r.next.getD [] ++ r.src.flatten = body

/-- What a refill does with the block it holds: the end of the source makes it the last one. -/
theorem lookAhead_cases (r : BlockReader) (block : Block) (goesOn : r.eof = false) :
    let plain := Cbc.decryptBlock r.cipher r.iv block
    (r.src.flatten.length < blockSize ∧ (padByte plain < 1 ∨ padByte plain > blockSize) ∧
      ∃ after, r.lookAhead block.toList = (after, some .invalidPadding)) ∨
    (r.src.flatten.length < blockSize ∧ ¬ (padByte plain < 1 ∨ padByte plain > blockSize) ∧
      ∃ after, r.lookAhead block.toList = (after, none) ∧ after.eof = true) ∨
    (blockSize ≤ r.src.flatten.length ∧ ∃ after, r.lookAhead block.toList = (after, none) ∧
      after.cipher = r.cipher ∧ after.iv = block ∧ after.cur.length = blockSize ∧
      after.Awaits r.src.flatten) := by
  have ownBlock : Cbc.toBlock blockSize block.toList = block := by
    have whole := Cbc.toBlock_toList block []
    rwa [List.append_nil] at whole
  intro plain
  unfold lookAhead
  dsimp only
  rw [ownBlock]
  rcases Nat.lt_or_ge r.src.flatten.length blockSize with tooFew | enough
  · rw [readFull_of_lt [] tooFew]
    dsimp only
    by_cases wrong : padByte plain < 1 ∨ padByte plain > blockSize
    · exact .inl ⟨tooFew, wrong, _, if_pos wrong⟩
    · exact .inr (.inl ⟨tooFew, wrong, _, if_neg wrong, rfl⟩)
  · obtain ⟨src, read, flatten⟩ := readFull_of_le [] enough
    rw [read, List.nil_append]
    refine .inr (.inr ⟨enough, _, rfl, rfl, rfl, List.Vector.toList_length _, goesOn, .inr
      ⟨Cbc.toBlock blockSize r.src.flatten, ?_⟩, ?_⟩)
    · dsimp only
      rw [Cbc.toList_toBlock enough]
    · dsimp only
      rw [Option.getD_some, flatten, List.take_append_drop]

/-- A refill takes a whole block, if there is one. -/
theorem refill_of_awaits {r : BlockReader} {body : Bytes} (awaits : r.Awaits body) :
    (body.length < blockSize ∧ ∃ after, r.refill = (after, none) ∧ after.eof = true) ∨
    (blockSize ≤ body.length ∧ ∃ ahead : BlockReader, ahead.cipher = r.cipher ∧ ahead.iv = r.iv ∧
      ahead.eof = false ∧ ahead.src.flatten = body.drop blockSize ∧
      r.refill = ahead.lookAhead (Cbc.toBlock blockSize body).toList) := by
  have stream := awaits.rest
  unfold refill
  rcases awaits.next with none | ⟨block, some⟩
  · rw [none, Option.getD_none, List.nil_append] at stream
    rw [none]
    dsimp only
    rcases Nat.lt_or_ge body.length blockSize with tooFew | enough
    · rw [← stream] at tooFew
      rw [readFull_of_lt [] tooFew]
      exact .inl ⟨stream ▸ tooFew, _, rfl, rfl⟩
    · rw [← stream] at enough
      obtain ⟨src, read, flatten⟩ := readFull_of_le [] enough
      rw [read, List.nil_append]
      refine .inr ⟨stream ▸ enough, { r with src, next := Option.none }, rfl, rfl, awaits.goesOn,
        ?_, ?_⟩
      · rw [← stream]
        exact flatten
      · rw [← stream, Cbc.toList_toBlock enough]
  · rw [some, Option.getD_some] at stream
    rw [some]
    have length : blockSize ≤ body.length := by
      rw [← stream, List.length_append, List.Vector.toList_length]
      exact Nat.le_add_right _ _
    refine .inr ⟨length, r, rfl, rfl, awaits.goesOn, ?_, ?_⟩
    · rw [← stream, List.drop_left' (List.Vector.toList_length block)]
    · rw [← stream, Cbc.toBlock_toList]

/-- However a body is cut and read, the calls end as its last whole block says. -/
theorem Awaits.ends {r : BlockReader} {body : Bytes} (awaits : r.Awaits body) {sizes : Nat → Nat}
    (positive : ∀ i, 0 < sizes i) : r.Ends sizes (ending r.cipher r.iv body) := by
  -- A call takes from what is decrypted, and a refill turns 16 bytes of the body into as many.
  induction size : r.cur.length + 2 * body.length using Nat.strongRecOn
    generalizing r body sizes with
  | _ _ ih =>
    by_cases nothing : r.cur.length = 0
    · rcases refill_of_awaits awaits with
        ⟨tooFew, after, refilled, ended⟩ |
        ⟨enough, ahead, sameCipher, sameIV, goesOn, src, refilled⟩
      · have isEnd : ending r.cipher r.iv body = .eof := by
          rw [ending, lastPlain, if_pos tooFew]
        rw [isEnd]
        exact ends_congr (read_of_refilled nothing awaits.goesOn refilled _)
          (ends_of_eof ended positive)
      · have notFew : ¬ body.length < blockSize := Nat.not_lt.mpr enough
        rcases lookAhead_cases ahead (Cbc.toBlock blockSize body) goesOn with
          ⟨tooFew, wrong, after, looked⟩ | ⟨tooFew, right, after, looked, ended⟩ |
          ⟨more, after, looked, afterCipher, afterIV, length, afterAwaits⟩
        · rw [src, List.length_drop] at tooFew
          rw [sameCipher, sameIV] at wrong
          have isFault : ending r.cipher r.iv body = .failed .invalidPadding := by
            rw [ending, lastPlain, if_neg notFew, if_pos (by omega)]
            exact if_pos wrong
          rw [isFault]
          exact ends_of_first
            (read_of_fault nothing awaits.goesOn (refilled.trans looked) (sizes 0))
        · rw [src, List.length_drop] at tooFew
          rw [sameCipher, sameIV] at right
          have isEnd : ending r.cipher r.iv body = .eof := by
            rw [ending, lastPlain, if_neg notFew, if_pos (by omega)]
            exact if_neg right
          rw [isEnd]
          exact ends_congr
            (read_of_refilled nothing awaits.goesOn (refilled.trans looked) _)
            (ends_of_eof ended positive)
        · rw [src] at more afterAwaits
          have longer := more
          rw [List.length_drop] at longer
          have later : ending r.cipher r.iv body =
              ending after.cipher after.iv (body.drop blockSize) := by
            rw [ending, lastPlain, if_neg notFew, if_neg (by unfold blockSize at *; omega),
              afterCipher, sameCipher, afterIV]
            rfl
          rw [later]
          refine ends_congr (read_of_refilled nothing awaits.goesOn (refilled.trans looked) _)
            (ih _ ?_ afterAwaits positive rfl)
          rw [length, List.length_drop]
          unfold blockSize at *
          omega
    · refine ends_of_data (by rw [read, if_neg nothing]) ?_
      have awaitsNext : ({ r with cur := r.cur.drop (sizes 0) } : BlockReader).Awaits body :=
        ⟨awaits.goesOn, awaits.next, awaits.rest⟩
      refine ih _ ?_ awaitsNext (fun i => positive (i + 1)) rfl
      rw [List.length_drop]
      have := positive 0
      omega

theorem Ends.unique {r : BlockReader} {sizes : Nat → Nat} {first second : Outcome}
    (ends : r.Ends sizes first) (others : r.Ends sizes second)
    (firstStops : ∀ bytes, first ≠ .data bytes) (secondStops : ∀ bytes, second ≠ .data bytes) :
    first = second := by
  obtain ⟨m, firstGives, isFirst⟩ := ends
  obtain ⟨n, secondGives, isSecond⟩ := others
  rcases Nat.lt_trichotomy m n with before | rfl | behind
  · obtain ⟨bytes, gives⟩ := secondGives m before
    exact absurd (isFirst.symm.trans gives) (firstStops bytes)
  · exact isFirst.symm.trans isSecond
  · obtain ⟨bytes, gives⟩ := firstGives n behind
    exact absurd (isSecond.symm.trans gives) (secondStops bytes)

end BlockReader

/-! ### Damage -/

/-- Any bytes behind a header and a salt, in whatever pieces the source gives them, and the sizes of
the buffers they are read with. -/
structure Reading where
  prims : Primitives
  passphrase : String
  salt : List.Vector UInt8 opensslSalt
  body : Bytes
  pieces : List Bytes
  sizes : Nat → Nat
  given : passphrase ≠ ""
  cut : pieces.flatten = opensslMagic ++ (salt.toList ++ body)
  positive : ∀ i, 0 < sizes i

namespace Reading

variable (reading : Reading)

def cipher : Equiv.Perm Block := reading.prims.cipher reading.passphrase reading.salt.toList

def iv : Block := reading.prims.iv reading.passphrase reading.salt.toList

def Damaged : Prop := ¬ ValidPadded reading.cipher reading.iv reading.body

/-- The stream that `DecryptOpenSSL` returns ends in an error. -/
def Refused : Prop :=
  ∃ r, decryptOpenSSL reading.prims reading.pieces reading.passphrase = .ok r ∧
    ∃ fault, r.Ends reading.sizes (.failed fault)

theorem refused_iff : reading.Refused ↔ Detected reading.cipher reading.iv reading.body := by
  obtain ⟨src, isBody, opened⟩ := decryptOpenSSL_opens reading.prims reading.given reading.salt
    reading.cut
  have awaits : BlockReader.Awaits { cipher := reading.cipher, iv := reading.iv, src }
      reading.body := ⟨rfl, .inl rfl, isBody⟩
  have ends := awaits.ends reading.positive
  have isOnly : reading.Refused ↔ ∃ fault, BlockReader.Ends
      { cipher := reading.cipher, iv := reading.iv, src } reading.sizes (.failed fault) := by
    unfold Refused
    rw [opened]
    constructor
    · rintro ⟨r, isReader, fails⟩
      cases isReader
      exact fails
    · exact fun fails => ⟨_, rfl, fails⟩
  rw [isOnly]
  unfold Detected
  unfold ending at ends
  cases last : lastPlain reading.cipher reading.iv reading.body with
  | none =>
    rw [last] at ends
    constructor
    · rintro ⟨fault, fails⟩
      have same := ends.unique fails (by simp) (by simp)
      cases same
    · rintro ⟨plain, isPlain, -⟩
      cases isPlain
  | some plain =>
    rw [last] at ends
    dsimp only at ends
    constructor
    · rintro ⟨fault, fails⟩
      refine ⟨plain, rfl, ?_⟩
      by_contra right
      rw [if_neg right] at ends
      have same := ends.unique fails (by simp) (by simp)
      cases same
    · rintro ⟨_, isPlain, wrong⟩
      cases isPlain
      rw [if_pos wrong] at ends
      exact ⟨_, ends⟩

/-- A damaged body is refused exactly when its last whole block gives it away. -/
theorem refusesDamage_iff : (reading.Damaged → reading.Refused) ↔
    ValidPadded reading.cipher reading.iv reading.body ∨
      Detected reading.cipher reading.iv reading.body := by
  rw [refused_iff]
  unfold Damaged
  constructor
  · intro refuses
    by_cases valid : ValidPadded reading.cipher reading.iv reading.body
    · exact .inl valid
    · exact .inr (refuses valid)
  · rintro (valid | detected) damaged
    · exact absurd valid damaged
    · exact detected

end Reading

/-- The header and the salt of a backup whose upload stopped there. -/
def truncatedReading : Reading where
  prims := ⟨fun _ => Equiv.refl _, fun _ _ => List.Vector.replicate 48 0⟩
  passphrase := "secret"
  salt := List.Vector.replicate opensslSalt 0
  body := []
  pieces := [opensslMagic ++ (List.Vector.replicate opensslSalt 0).toList]
  sizes _ := 512
  given := by decide
  cut := by simp
  positive _ := by decide

/-- Such a backup reads as an empty dump. -/
theorem truncated_not_refused : truncatedReading.Damaged ∧ ¬ truncatedReading.Refused := by
  have noBlock : lastPlain truncatedReading.cipher truncatedReading.iv [] = none := by
    rw [lastPlain]
    rfl
  constructor
  · rintro ⟨positive, -⟩
    exact absurd positive (by decide)
  · rw [truncatedReading.refused_iff]
    rintro ⟨plain, isPlain, -⟩
    change lastPlain _ _ [] = _ at isPlain
    rw [noBlock] at isPlain
    cases isPlain

end DbBackup.Pipeline.Openssl
