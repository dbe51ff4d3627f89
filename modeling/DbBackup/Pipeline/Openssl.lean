import DbBackup.Lib.Cbc
import DbBackup.Lib.ShortReads
import DbBackup.Pipeline.Codec

/-!
Owns the OpenSSL encryption: `Encrypt` and the `blockWriter` of
`supported/encrypt/backend/openssl.go`, and `DecryptOpenSSL` and the `blockReader` of
`internal/encrypt/decrypt.go`.

AES is any permutation of the blocks for each key, PBKDF2 any function of passphrase and salt, and
the salt is any. The writer keeps what does not fill a block; the reader looks one block ahead, as
the last one has the padding.

Contract: `decrypts_encrypted`. However the plaintext is cut into calls of `Write`, the ciphertext
into short reads and the result into calls of `Read`, the plaintext comes back and then the end.

Does not own: errors of the destination, and of the source other than its end.
-/

set_option linter.all false

namespace DbBackup.Pipeline.Openssl

open Lib Lib.ShortReads

def blockSize : Nat := 16

abbrev Block := Cbc.Block blockSize

def opensslMagic : Bytes := ascii "Salted__"

def opensslSalt : Nat := 8

structure Primitives where
  aes : Bytes → Equiv.Perm Block
  /-- With SHA-256, 600000 iterations and 48 bytes: a key of 32 and a first block. -/
  pbkdf2 : String → Bytes → List.Vector UInt8 48

namespace Primitives

variable (prims : Primitives) (passphrase : String) (salt : Bytes)

def cipher : Equiv.Perm Block := prims.aes ((prims.pbkdf2 passphrase salt).toList.take 32)

def iv : Block := Cbc.toBlock blockSize ((prims.pbkdf2 passphrase salt).toList.drop 32)

end Primitives

/-! ### Encrypting -/

structure BlockWriter where
  cipher : Equiv.Perm Block
  /-- Of the mode: the last cipher block. -/
  iv : Block
  dst : Bytes
  pending : Bytes := []
  closed : Bool := false

namespace BlockWriter

def write (w : BlockWriter) (p : Bytes) : BlockWriter :=
  let pending := w.pending ++ p
  let full := pending.length - pending.length % blockSize
  if full > 0 then
    let chunk := Cbc.encrypt w.cipher w.iv (pending.take full)
    { w with iv := chunk.2, dst := w.dst ++ chunk.1, pending := pending.drop full }
  else { w with pending }

def padding (length : Nat) : Nat :=
  let pad := blockSize - length % blockSize
  if pad = 0 then blockSize else pad

def close (w : BlockWriter) : BlockWriter :=
  if w.closed then w
  else
    let pad := padding w.pending.length
    let padded := w.pending ++ List.replicate pad (UInt8.ofNat pad)
    let chunk := Cbc.encrypt w.cipher w.iv padded
    { w with iv := chunk.2, dst := w.dst ++ chunk.1, closed := true }

end BlockWriter

def encrypt (prims : Primitives) (passphrase : String) (salt : Bytes) : BlockWriter where
  cipher := prims.cipher passphrase salt
  iv := prims.iv passphrase salt
  dst := opensslMagic ++ salt

/-- What `Encrypt`, the calls of `Write` and `Close` produce. -/
def encrypted (prims : Primitives) (passphrase : String) (salt : List.Vector UInt8 opensslSalt)
    (writes : List Bytes) : Bytes :=
  (writes.foldl BlockWriter.write (encrypt prims passphrase salt.toList)).close.dst

/-! ### Decrypting -/

inductive Fault where
  | passphraseRequired
  | readHeader (err : ReadError)
  | notOpenssl
  | readSalt (err : ReadError)
  | invalidPadding
deriving DecidableEq

structure BlockReader where
  cipher : Equiv.Perm Block
  iv : Block
  src : List Bytes
  cur : Bytes := []
  next : Option Bytes := none
  eof : Bool := false

def decryptOpenSSL (prims : Primitives) (src : List Bytes) (passphrase : String) :
    Except Fault BlockReader :=
  if passphrase = "" then .error .passphraseRequired
  else
    match readFull [] 8 src with
    | (_, _, some err) => .error (.readHeader err)
    | (header, src, none) =>
      if header ≠ opensslMagic then .error .notOpenssl
      else
        match readFull [] opensslSalt src with
        | (_, _, some err) => .error (.readSalt err)
        | (salt, src, none) =>
          .ok { cipher := prims.cipher passphrase salt, iv := prims.iv passphrase salt, src }

namespace BlockReader

/-- `refill` from the read of the block after `next` on. -/
def lookAhead (r : BlockReader) (next : Bytes) : BlockReader × Option Fault :=
  let read := readFull [] blockSize r.src
  let plain := (Cbc.decryptBlock r.cipher r.iv (Cbc.toBlock blockSize next)).toList
  let r := { r with src := read.2.1, iv := Cbc.toBlock blockSize next }
  match read.2.2 with
  | some _ =>
    let pad := (plain.getLastD 0).toNat
    if pad < 1 ∨ pad > blockSize then ({ r with next := some plain }, some .invalidPadding)
    else
      ({ r with next := some plain, cur := plain.take (plain.length - pad), eof := true }, none)
  | none => ({ r with cur := plain, next := some read.1 }, none)

def refill (r : BlockReader) : BlockReader × Option Fault :=
  match r.next with
  | some next => r.lookAhead next
  | none =>
    match readFull [] blockSize r.src with
    | (_, src, some _) => ({ r with src, eof := true }, none)
    | (next, src, none) => lookAhead { r with src } next

theorem length_pos_of_plain (block : Block) : 0 < block.toList.length := by
  rw [block.toList_length]
  decide

/-- A refill without an error has something to give, or the end. -/
theorem refill_progress {r after : BlockReader} (refilled : r.refill = (after, none)) :
    after.cur.length ≠ 0 ∨ after.eof = true := by
  have ahead : ∀ (r : BlockReader) (next : Bytes), r.lookAhead next = (after, none) →
      after.cur.length ≠ 0 ∨ after.eof = true := by
    intro r next looked
    unfold lookAhead at looked
    dsimp only at looked
    split at looked
    · split at looked
      · cases looked
      · cases looked
        exact .inr rfl
    · cases looked
      exact .inl (Nat.pos_iff_ne_zero.mp (length_pos_of_plain _))
  unfold refill at refilled
  split at refilled
  · exact ahead _ _ refilled
  · split at refilled
    · cases refilled
      exact .inr rfl
    · exact ahead _ _ refilled

end BlockReader

inductive Outcome where
  | data (bytes : Bytes)
  | eof
  | failed (fault : Fault)
deriving DecidableEq

namespace BlockReader

/-- A call of `Read` with a buffer of this size. -/
def read (r : BlockReader) (size : Nat) : BlockReader × Outcome :=
  if r.cur.length = 0 then
    if r.eof then (r, .eof)
    else
      match _refilled : r.refill with
      | (after, some fault) => (after, .failed fault)
      | (after, none) => read after size
  else ({ r with cur := r.cur.drop size }, .data (r.cur.take size))
termination_by if r.cur.length = 0 ∧ r.eof = false then 1 else 0
decreasing_by
  have stops : ¬ (after.cur.length = 0 ∧ after.eof = false) := by
    rintro ⟨nothing, goesOn⟩
    rcases refill_progress ‹r.refill = (after, none)› with something | ended
    · exact something nothing
    · exact absurd (goesOn.symm.trans ended) (by decide)
  rw [if_neg stops, if_pos ⟨‹r.cur.length = 0›, Bool.eq_false_iff.mpr ‹_›⟩]
  exact Nat.zero_lt_one

/-- After a refill the call goes on with what is there. -/
theorem read_of_refilled {r after : BlockReader} (nothing : r.cur.length = 0)
    (goesOn : r.eof = false) (refilled : r.refill = (after, none)) (size : Nat) :
    r.read size = after.read size := by
  rw [read, if_pos nothing, if_neg (by rw [goesOn]; decide)]
  split
  next shape =>
    rw [refilled] at shape
    cases shape
  next shape =>
    rw [refilled] at shape
    cases shape
    rfl

/-- The reader after the first calls of a sequence. -/
def after (r : BlockReader) (sizes : Nat → Nat) : Nat → BlockReader
  | 0 => r
  | n + 1 => ((after r sizes n).read (sizes n)).1

theorem after_shift (r : BlockReader) (sizes : Nat → Nat) (n : Nat) :
    r.after sizes (n + 1) = (r.read (sizes 0)).1.after (fun i => sizes (i + 1)) n := by
  induction n with
  | zero => rfl
  | succ n same => rw [after, same, after]

/-- What a call of the sequence returns. -/
def outcome (r : BlockReader) (sizes : Nat → Nat) (n : Nat) : Outcome :=
  ((r.after sizes n).read (sizes n)).2

end BlockReader

/-! ### What the writer wrote -/

section Writer

variable {cipher : Equiv.Perm Block} {iv : Block} {header : Bytes}

/-- The bytes written so far: whole blocks are encrypted, the rest waits. -/
structure Encrypts (cipher : Equiv.Perm Block) (iv : Block) (header : Bytes) (data : Bytes)
    (w : BlockWriter) : Prop where
  sameCipher : w.cipher = cipher
  isOpen : w.closed = false
  short : w.pending.length < blockSize
  blocks : ∃ whole, blockSize ∣ whole.length ∧ data = whole ++ w.pending ∧
    w.dst = header ++ (Cbc.encrypt cipher iv whole).1 ∧ w.iv = (Cbc.encrypt cipher iv whole).2

variable {data : Bytes}

theorem Encrypts.write {w : BlockWriter} (holds : Encrypts cipher iv header data w)
    (p : Bytes) : Encrypts cipher iv header (data ++ p) (w.write p) := by
  obtain ⟨whole, aligned, shape, dst, last⟩ := holds.blocks
  unfold BlockWriter.write
  dsimp only
  generalize joined : w.pending ++ p = pending
  have total : data ++ p = whole ++ pending := by rw [shape, List.append_assoc, joined]
  have below : pending.length % blockSize < blockSize := Nat.mod_lt _ (by decide)
  split
  next some =>
    refine ⟨holds.sameCipher, holds.isOpen, ?_,
      whole ++ pending.take (pending.length - pending.length % blockSize), ?_, ?_, ?_, ?_⟩
    · rw [List.length_drop]
      omega
    · rw [List.length_append, List.length_take, Nat.min_eq_left (Nat.sub_le _ _)]
      exact Nat.dvd_add aligned (Nat.dvd_sub_mod _)
    · rw [total, List.append_assoc, List.take_append_drop]
    · rw [Cbc.encrypt_append _ aligned (by decide), dst, holds.sameCipher, last, List.append_assoc]
    · rw [Cbc.encrypt_append _ aligned (by decide), holds.sameCipher, last]
  next none =>
    have short : pending.length < blockSize := by omega
    exact ⟨holds.sameCipher, holds.isOpen, short, whole, aligned, total, dst, last⟩

theorem Encrypts.writes {w : BlockWriter} (holds : Encrypts cipher iv header data w)
    (writes : List Bytes) :
    Encrypts cipher iv header (data ++ writes.flatten) (writes.foldl BlockWriter.write w) := by
  induction writes generalizing data w with
  | nil =>
    rw [List.flatten_nil, List.append_nil]
    exact holds
  | cons p writes ih =>
    rw [List.flatten_cons, ← List.append_assoc]
    exact ih (holds.write p)

/-- The plaintext with its padding. -/
def Padded (data padded : Bytes) : Prop :=
  ∃ pad, 1 ≤ pad ∧ pad ≤ blockSize ∧ padded = data ++ List.replicate pad (UInt8.ofNat pad) ∧
    blockSize ∣ padded.length

theorem Encrypts.close {w : BlockWriter} (holds : Encrypts cipher iv header data w) :
    ∃ padded, Padded data padded ∧ w.close.dst = header ++ (Cbc.encrypt cipher iv padded).1 := by
  obtain ⟨whole, aligned, shape, dst, last⟩ := holds.blocks
  have short := holds.short
  have pad : BlockWriter.padding w.pending.length = blockSize - w.pending.length := by
    rw [BlockWriter.padding, Nat.mod_eq_of_lt short, if_neg (by omega)]
  refine ⟨whole ++ (w.pending ++ List.replicate (blockSize - w.pending.length)
    (UInt8.ofNat (blockSize - w.pending.length))), ⟨blockSize - w.pending.length, by omega,
    Nat.sub_le _ _, ?_, ?_⟩, ?_⟩
  · rw [shape, List.append_assoc]
  · rw [List.length_append, List.length_append, List.length_replicate,
      Nat.add_sub_cancel' (Nat.le_of_lt short)]
    exact Nat.dvd_add aligned (Nat.dvd_refl _)
  · rw [Cbc.encrypt_append _ aligned (by decide), ← List.append_assoc, ← dst, ← last,
      ← holds.sameCipher, ← pad]
    unfold BlockWriter.close
    rw [holds.isOpen]
    rfl

end Writer

variable (prims : Primitives)

theorem encrypted_spec (passphrase : String)
    (salt : List.Vector UInt8 opensslSalt) (writes : List Bytes) :
    ∃ padded, Padded writes.flatten padded ∧
      encrypted prims passphrase salt writes = opensslMagic ++ (salt.toList ++
        (Cbc.encrypt (prims.cipher passphrase salt.toList) (prims.iv passphrase salt.toList)
          padded).1) := by
  have initially : Encrypts (prims.cipher passphrase salt.toList)
      (prims.iv passphrase salt.toList) (opensslMagic ++ salt.toList) []
      (encrypt prims passphrase salt.toList) := by
    refine ⟨rfl, rfl, (show 0 < blockSize by decide), [], Nat.dvd_zero _, rfl, ?_, ?_⟩
    · rw [Cbc.encrypt_nil, List.append_nil]
      rfl
    · rw [Cbc.encrypt_nil]
      rfl
  obtain ⟨padded, isPadded, dst⟩ := (initially.writes writes).close
  rw [List.nil_append] at isPadded
  refine ⟨padded, isPadded, ?_⟩
  rw [encrypted, dst, List.append_assoc]

/-! ### What the reader gives -/

theorem Padded.ne_nil {data padded : Bytes} (isPadded : Padded data padded) : padded ≠ [] := by
  obtain ⟨pad, one, -, rfl, -⟩ := isPadded
  intro empty
  have := congrArg List.length empty
  rw [List.length_append, List.length_replicate, List.length_nil] at this
  omega

theorem Padded.blockSize_le {data padded : Bytes} (isPadded : Padded data padded) :
    blockSize ≤ padded.length := by
  obtain ⟨_, _, _, _, aligned⟩ := id isPadded
  exact Nat.le_of_dvd (List.length_pos_iff.mpr isPadded.ne_nil) aligned

/-- The padding stays in the last block. -/
theorem Padded.drop {data padded : Bytes} (isPadded : Padded data padded)
    (more : padded.drop blockSize ≠ []) :
    Padded (data.drop blockSize) (padded.drop blockSize) ∧
      padded.take blockSize = data.take blockSize := by
  obtain ⟨pad, one, atMost, rfl, aligned⟩ := isPadded
  have alignedRest := Nat.dvd_sub aligned (Nat.dvd_refl blockSize)
  rw [← List.length_drop] at alignedRest
  have long := Nat.le_of_dvd (List.length_pos_iff.mpr more) alignedRest
  rw [List.length_drop, List.length_append, List.length_replicate] at long
  have dataLong : blockSize ≤ data.length := by omega
  refine ⟨⟨pad, one, atMost, ?_, alignedRest⟩, ?_⟩
  · rw [List.drop_append_of_le_length dataLong]
  · rw [List.take_append_of_le_length dataLong]

/-- One block is left: it ends in the length of the padding. -/
theorem Padded.last {data padded : Bytes} (isPadded : Padded data padded)
    (length : padded.length = blockSize) :
    1 ≤ (padded.getLastD 0).toNat ∧ (padded.getLastD 0).toNat ≤ blockSize ∧
      padded.take (padded.length - (padded.getLastD 0).toNat) = data := by
  obtain ⟨pad, one, atMost, rfl, -⟩ := isPadded
  have small : pad < 2 ^ 8 := Nat.lt_of_le_of_lt atMost (by decide)
  obtain ⟨fewer, rfl⟩ : ∃ fewer, pad = fewer + 1 := ⟨pad - 1, by omega⟩
  have last : ((data ++ List.replicate (fewer + 1) (UInt8.ofNat (fewer + 1))).getLastD 0).toNat =
      fewer + 1 := by
    rw [List.replicate_succ', ← List.append_assoc, List.getLastD_concat]
    exact UInt8.toNat_ofNat_of_lt small
  rw [last]
  refine ⟨one, atMost, List.take_left' ?_⟩
  rw [List.length_append, List.length_replicate]
  omega

namespace BlockReader

/-- The reader has still to give these bytes. -/
def Delivers (r : BlockReader) (rest : Bytes) : Prop :=
  if r.eof then r.cur = rest
  else ∃ data padded, rest = r.cur ++ data ∧ Padded data padded ∧
    (r.next = none ∨ ∃ block : Block, r.next = some block.toList) ∧
    r.next.getD [] ++ r.src.flatten = (Cbc.encrypt r.cipher r.iv padded).1

/-- The next block is decrypted, and the padding is taken off when it is the last one. -/
theorem lookAhead_delivers {r : BlockReader} {data padded : Bytes} {block : Block}
    (goesOn : r.eof = false) (isPadded : Padded data padded)
    (stream : block.toList ++ r.src.flatten = (Cbc.encrypt r.cipher r.iv padded).1) :
    ∃ after, r.lookAhead block.toList = (after, none) ∧ after.Delivers data := by
  have long := isPadded.blockSize_le
  -- The first block of the plaintext is the one behind the first cipher block.
  have shape : padded = (Cbc.toBlock blockSize padded).toList ++ padded.drop blockSize := by
    rw [Cbc.toList_toBlock long, List.take_append_drop]
  rw [shape, Cbc.encrypt_cons _ (by decide)] at stream
  obtain ⟨same, behind⟩ := List.append_inj stream (by simp)
  obtain rfl := List.Vector.toList_injective same
  have ownBlock : ∀ block : Block, Cbc.toBlock blockSize block.toList = block := fun block => by
    have whole := Cbc.toBlock_toList block []
    rwa [List.append_nil] at whole
  unfold lookAhead
  dsimp only
  rw [ownBlock, Cbc.decryptBlock_encrypt, Cbc.toList_toBlock long]
  by_cases last : padded.drop blockSize = []
  · rw [last, Cbc.encrypt_nil] at behind
    have oneBlock : padded.length = blockSize :=
      Nat.le_antisymm (List.drop_eq_nil_iff.mp last) long
    obtain ⟨one, atMost, own⟩ := isPadded.last oneBlock
    rw [readFull_of_lt [] (by rw [behind]; exact Nat.zero_lt_succ 15),
      List.take_of_length_le (Nat.le_of_eq oneBlock)]
    dsimp only
    rw [if_neg (by omega)]
    exact ⟨_, rfl, own⟩
  · obtain ⟨restPadded, first⟩ := isPadded.drop last
    have restLong := restPadded.blockSize_le
    have enough : blockSize ≤ r.src.flatten.length := by
      rw [behind, Cbc.length_encrypt]
      exact Nat.le_mul_of_pos_left _ (Nat.div_pos restLong (by decide))
    obtain ⟨src, read, flatten⟩ := readFull_of_le [] enough
    rw [read, List.nil_append]
    refine ⟨_, rfl, ?_⟩
    unfold Delivers
    rw [if_neg (by rw [goesOn]; decide)]
    refine ⟨data.drop blockSize, padded.drop blockSize, ?_, restPadded, .inr
      ⟨Cbc.toBlock blockSize r.src.flatten, ?_⟩, ?_⟩
    · dsimp only
      rw [first, List.take_append_drop]
    · dsimp only
      rw [Cbc.toList_toBlock enough]
    · dsimp only
      rw [Option.getD_some, flatten, List.take_append_drop, behind]

variable {rest : Bytes}

theorem refill_delivers {r : BlockReader} (delivers : r.Delivers rest)
    (nothing : r.cur.length = 0) (goesOn : r.eof = false) :
    ∃ after, r.refill = (after, none) ∧ after.Delivers rest := by
  unfold Delivers at delivers
  rw [if_neg (by rw [goesOn]; decide)] at delivers
  obtain ⟨data, padded, rfl, isPadded, next, stream⟩ := delivers
  rw [List.length_eq_zero_iff.mp nothing, List.nil_append]
  unfold refill
  rcases next with none | ⟨block, some⟩
  · rw [none, Option.getD_none, List.nil_append] at stream
    have enough : blockSize ≤ r.src.flatten.length := by
      rw [stream, Cbc.length_encrypt]
      exact Nat.le_mul_of_pos_left _ (Nat.div_pos isPadded.blockSize_le (by decide))
    obtain ⟨src, read, flatten⟩ := readFull_of_le [] enough
    rw [none, read, List.nil_append, ← Cbc.toList_toBlock enough]
    refine lookAhead_delivers goesOn isPadded ?_
    rw [Cbc.toList_toBlock enough, flatten, List.take_append_drop, stream]
  · rw [some, Option.getD_some] at stream
    rw [some]
    exact lookAhead_delivers goesOn isPadded stream

/-- What is already decrypted is given first. -/
theorem Delivers.split {r : BlockReader} (delivers : r.Delivers rest) :
    ∃ data, rest = r.cur ++ data ∧ ∀ cur, Delivers { r with cur } (cur ++ data) := by
  unfold Delivers at delivers ⊢
  by_cases ended : r.eof = true
  · rw [if_pos ended] at delivers
    refine ⟨[], by rw [List.append_nil, delivers], fun cur => ?_⟩
    rw [if_pos ended, List.append_nil]
  · rw [if_neg ended] at delivers
    obtain ⟨data, padded, shape, others⟩ := delivers
    refine ⟨data, shape, fun cur => ?_⟩
    rw [if_neg ended]
    exact ⟨data, padded, rfl, others⟩

/-- Where a call of `Read` leaves the reader: at the end, or past the bytes it gave. -/
def Serves (r : BlockReader) (size : Nat) (rest : Bytes) : Prop :=
  (rest = [] ∧ (r.read size).2 = .eof ∧ (r.read size).1.Delivers []) ∨
    ∃ bytes more, bytes ≠ [] ∧ rest = bytes ++ more ∧ (r.read size).2 = .data bytes ∧
      (r.read size).1.Delivers more

theorem Delivers.serves_cur {r : BlockReader} (delivers : r.Delivers rest)
    {size : Nat} (positive : 0 < size) (something : r.cur.length ≠ 0) : r.Serves size rest := by
  obtain ⟨data, shape, others⟩ := delivers.split
  refine .inr ⟨r.cur.take size, r.cur.drop size ++ data, ?_, ?_, ?_, ?_⟩
  · intro empty
    have := congrArg List.length empty
    rw [List.length_take, List.length_nil] at this
    omega
  · rw [← List.append_assoc, List.take_append_drop, shape]
  · rw [read, if_neg something]
  · rw [read, if_neg something]
    exact others _

theorem Delivers.serves {r : BlockReader} (delivers : r.Delivers rest) {size : Nat}
    (positive : 0 < size) : r.Serves size rest := by
  -- The loop refills at most once: after that there are bytes, or the end.
  have ends : ∀ {r : BlockReader}, r.Delivers rest → r.eof = true → r.Serves size rest := by
    intro r delivers ended
    by_cases nothing : r.cur.length = 0
    · have isRest := delivers
      unfold Delivers at isRest
      rw [if_pos ended, List.length_eq_zero_iff.mp nothing] at isRest
      have reads : r.read size = (r, .eof) := by rw [read, if_pos nothing, if_pos ended]
      exact .inl ⟨isRest.symm, by rw [reads], by rw [reads]; exact isRest ▸ delivers⟩
    · exact delivers.serves_cur positive nothing
  by_cases nothing : r.cur.length = 0
  · by_cases ended : r.eof = true
    · exact ends delivers ended
    · obtain ⟨after, refilled, afterDelivers⟩ :=
        refill_delivers delivers nothing (Bool.eq_false_iff.mpr ended)
      have reads := read_of_refilled nothing (Bool.eq_false_iff.mpr ended) refilled size
      unfold Serves
      rw [reads]
      rcases refill_progress refilled with something | hasEnded
      · exact afterDelivers.serves_cur positive something
      · exact ends afterDelivers hasEnded
  · exact delivers.serves_cur positive nothing

/-- From its first call on, a sequence of calls gives the bytes and then the end. -/
theorem Delivers.reads {r : BlockReader} (delivers : r.Delivers rest)
    {sizes : Nat → Nat} (positive : ∀ i, 0 < sizes i) :
    ∃ (n : Nat) (got : Nat → Bytes), (∀ i < n, r.outcome sizes i = .data (got i)) ∧
      (List.range n).flatMap got = rest ∧ ∀ i, n ≤ i → r.outcome sizes i = .eof := by
  induction length : rest.length using Nat.strongRecOn generalizing r rest sizes with
  | _ _ ih =>
    rcases delivers.serves (positive 0) with ⟨rfl, isEnd, endDelivers⟩ |
      ⟨bytes, more, some, rfl, gives, moreDelivers⟩
    · refine ⟨0, fun _ => [], fun i below => absurd below (Nat.not_lt_zero i), rfl, fun i _ => ?_⟩
      -- At the end every call gives the end again.
      have stays : ∀ n, (r.after sizes n).Delivers [] := by
        intro n
        induction n with
        | zero => exact delivers
        | succ n atEnd =>
          rcases atEnd.serves (positive n) with ⟨-, -, still⟩ | ⟨bytes, more, some, shape, -⟩
          · exact still
          · exact absurd (List.append_eq_nil_iff.mp shape.symm).1 some
      rcases (stays i).serves (positive i) with ⟨-, isEnd, -⟩ | ⟨bytes, more, some, shape, -⟩
      · exact isEnd
      · exact absurd (List.append_eq_nil_iff.mp shape.symm).1 some
    · have shift := r.after_shift sizes
      obtain ⟨n, got, gives', joined, ends⟩ := ih more.length
        (by rw [← length, List.length_append]; have := List.length_pos_iff.mpr some; omega)
        moreDelivers (fun i => positive (i + 1)) rfl
      refine ⟨n + 1, fun i => if i = 0 then bytes else got (i - 1), ?_, ?_, ?_⟩
      · intro i below
        cases i with
        | zero => exact gives
        | succ i =>
          have later := gives' i (by omega)
          rw [outcome] at later ⊢
          rw [shift]
          exact later
      · rw [List.range_succ_eq_map, List.flatMap_cons, List.flatMap_map]
        exact congrArg (bytes ++ ·) joined
      · intro i atLeast
        cases i with
        | zero => omega
        | succ i =>
          have later := ends i (by omega)
          rw [outcome] at later ⊢
          rw [shift]
          exact later

end BlockReader

/-! ### Round trip -/

/-- Behind the header and the salt stands the reader. -/
theorem decryptOpenSSL_opens {passphrase : String}
    (given : passphrase ≠ "") (salt : List.Vector UInt8 opensslSalt) {body : Bytes}
    {pieces : List Bytes} (cut : pieces.flatten = opensslMagic ++ (salt.toList ++ body)) :
    ∃ src, src.flatten = body ∧ decryptOpenSSL prims pieces passphrase =
      .ok { cipher := prims.cipher passphrase salt.toList
            iv := prims.iv passphrase salt.toList, src } := by
  obtain ⟨afterHeader, header, behindHeader⟩ :=
    readFull_of_le [] (show 8 ≤ pieces.flatten.length by
      rw [cut, List.length_append]
      exact Nat.le_add_right 8 _)
  rw [cut, List.take_left' (by decide), List.nil_append] at header
  rw [cut, List.drop_left' (by decide)] at behindHeader
  obtain ⟨src, saltRead, behind⟩ :=
    readFull_of_le [] (show opensslSalt ≤ afterHeader.flatten.length by
      rw [behindHeader, List.length_append, salt.toList_length]
      exact Nat.le_add_right opensslSalt _)
  rw [behindHeader, List.take_left' salt.toList_length, List.nil_append] at saltRead
  rw [behindHeader, List.drop_left' salt.toList_length] at behind
  refine ⟨src, behind, ?_⟩
  unfold decryptOpenSSL
  rw [if_neg given, header]
  dsimp only
  rw [if_neg (by rw [not_not]), saltRead]

theorem decryptOpenSSL_delivers {passphrase : String}
    (given : passphrase ≠ "") (salt : List.Vector UInt8 opensslSalt) {data padded : Bytes}
    (isPadded : Padded data padded) {pieces : List Bytes}
    (cut : pieces.flatten = opensslMagic ++ (salt.toList ++
      (Cbc.encrypt (prims.cipher passphrase salt.toList) (prims.iv passphrase salt.toList)
        padded).1)) :
    ∃ r, decryptOpenSSL prims pieces passphrase = .ok r ∧ r.Delivers data := by
  obtain ⟨src, behind, opened⟩ := decryptOpenSSL_opens prims given salt cut
  exact ⟨_, opened, data, padded, rfl, isPadded, .inl rfl, behind⟩

theorem decrypts_encrypted (prims : Primitives) (passphrase : String) (given : passphrase ≠ "")
    (salt : List.Vector UInt8 opensslSalt) (writes : List Bytes) (pieces : List Bytes)
    (cut : pieces.flatten = encrypted prims passphrase salt writes) (sizes : Nat → Nat)
    (positive : ∀ i, 0 < sizes i) :
    ∃ r, decryptOpenSSL prims pieces passphrase = .ok r ∧
      ∃ (n : Nat) (got : Nat → Bytes), (∀ i < n, r.outcome sizes i = .data (got i)) ∧
        (List.range n).flatMap got = writes.flatten ∧ ∀ i, n ≤ i → r.outcome sizes i = .eof := by
  obtain ⟨padded, isPadded, shape⟩ := encrypted_spec prims passphrase salt writes
  obtain ⟨r, opened, delivers⟩ :=
    decryptOpenSSL_delivers prims given salt isPadded (cut.trans shape)
  exact ⟨r, opened, delivers.reads positive⟩

/-- Two calls of `Write`, a source that gives single bytes and buffers of one byte. -/
theorem decrypts_encrypted_bytewise :
    let prims : Primitives := ⟨fun _ => Equiv.refl _, fun _ _ => List.Vector.replicate 48 0⟩
    let salt := List.Vector.replicate opensslSalt 0
    let pieces := (encrypted prims "secret" salt [[1, 2, 3], [4]]).map fun byte => [byte]
    ∃ r, decryptOpenSSL prims pieces "secret" = .ok r ∧
      ∃ (n : Nat) (got : Nat → Bytes), (∀ i < n, r.outcome (fun _ => 1) i = .data (got i)) ∧
        (List.range n).flatMap got = [1, 2, 3, 4] ∧
        ∀ i, n ≤ i → r.outcome (fun _ => 1) i = .eof :=
  decrypts_encrypted _ "secret" (by decide) _ [[1, 2, 3], [4]] _
    (List.flatMap_def.symm.trans (List.flatMap_singleton' _)) (fun _ => 1)
    fun _ => Nat.zero_lt_one

end DbBackup.Pipeline.Openssl
