import Mathlib.Data.Vector.Basic

/-!
Owns cipher block chaining over bytes, for a permutation of the blocks of any size, as a mode does
it that keeps the last cipher block between calls.

Contract: encrypting in parts is encrypting the whole (`encrypt_append`), and decrypting the first
cipher block gives the first block back (`decryptBlock_encrypt`).
-/

namespace DbBackup.Lib.Cbc

abbrev Block (size : Nat) := List.Vector UInt8 size

variable {size : Nat}

/-- The first bytes as a block; what is missing counts as zero. -/
def toBlock (size : Nat) (bytes : List UInt8) : Block size :=
  ⟨(bytes ++ List.replicate size 0).take size, by simp⟩

theorem toList_toBlock {bytes : List UInt8} (long : size ≤ bytes.length) :
    (toBlock size bytes).toList = bytes.take size := List.take_append_of_le_length long

theorem toBlock_toList (block : Block size) (rest : List UInt8) :
    toBlock size (block.toList ++ rest) = block := by
  refine List.Vector.toList_injective ?_
  rw [toList_toBlock (by simp), List.take_left' block.toList_length]

def xor (a b : Block size) : Block size := List.Vector.map₂ (· ^^^ ·) a b

theorem xor_xor (a b : Block size) : xor a (xor a b) = b := by
  refine List.Vector.ext fun i => ?_
  rw [xor, xor, List.Vector.get_map₂, List.Vector.get_map₂, ← UInt8.xor_assoc, UInt8.xor_self,
    UInt8.zero_xor]

variable (cipher : Equiv.Perm (Block size))

/-- The given number of blocks, and the last cipher block. -/
def encryptBlocks : Nat → Block size → List UInt8 → List UInt8 × Block size
  | 0, iv, _ => ([], iv)
  | n + 1, iv, src =>
    let crypted := cipher (xor iv (toBlock size src))
    let rest := encryptBlocks n crypted (src.drop size)
    (crypted.toList ++ rest.1, rest.2)

/-- All blocks of the bytes. -/
def encrypt (iv : Block size) (src : List UInt8) : List UInt8 × Block size :=
  encryptBlocks cipher (src.length / size) iv src

/-- One block; it is the next one's `iv`. -/
def decryptBlock (iv crypted : Block size) : Block size := xor iv (cipher.symm crypted)

theorem decryptBlock_encrypt (iv block : Block size) :
    decryptBlock cipher iv (cipher (xor iv block)) = block := by
  rw [decryptBlock, Equiv.symm_apply_apply, xor_xor]

theorem length_encryptBlocks (n : Nat) (iv : Block size) (src : List UInt8) :
    (encryptBlocks cipher n iv src).1.length = n * size := by
  induction n generalizing iv src with
  | zero => rw [encryptBlocks, Nat.zero_mul]; rfl
  | succ n ih =>
    rw [encryptBlocks, List.length_append, ih, List.Vector.toList_length,
      Nat.succ_mul, Nat.add_comm]

theorem encryptBlocks_append {m : Nat} {first : List UInt8} (whole : first.length = m * size)
    (n : Nat) (iv : Block size) (second : List UInt8) :
    encryptBlocks cipher (m + n) iv (first ++ second) =
      ((encryptBlocks cipher m iv first).1 ++
          (encryptBlocks cipher n (encryptBlocks cipher m iv first).2 second).1,
        (encryptBlocks cipher n (encryptBlocks cipher m iv first).2 second).2) := by
  induction m generalizing iv first with
  | zero =>
    rw [Nat.zero_mul] at whole
    rw [List.length_eq_zero_iff.mp whole, Nat.zero_add, List.nil_append]
    rfl
  | succ m ih =>
    rw [Nat.succ_mul] at whole
    have long : size ≤ first.length := by omega
    have block : toBlock size (first ++ second) = toBlock size first := by
      refine List.Vector.toList_injective ?_
      rw [toList_toBlock (by rw [List.length_append]; omega), toList_toBlock long,
        List.take_append_of_le_length long]
    rw [Nat.succ_add, encryptBlocks, encryptBlocks, block, List.drop_append_of_le_length long,
      ih (by rw [List.length_drop]; omega)]
    simp only [List.append_assoc]

/-- Encrypting in parts is encrypting the whole. -/
theorem encrypt_append {first : List UInt8} (whole : size ∣ first.length) (positive : 0 < size)
    (iv : Block size) (second : List UInt8) :
    encrypt cipher iv (first ++ second) =
      ((encrypt cipher iv first).1 ++ (encrypt cipher (encrypt cipher iv first).2 second).1,
        (encrypt cipher (encrypt cipher iv first).2 second).2) := by
  obtain ⟨m, length⟩ := whole
  rw [Nat.mul_comm] at length
  have parts : (first ++ second).length / size = m + second.length / size := by
    rw [List.length_append, length, Nat.add_comm, Nat.add_mul_div_right _ _ positive, Nat.add_comm]
  have count : first.length / size = m := by rw [length, Nat.mul_div_cancel _ positive]
  rw [encrypt, parts, encryptBlocks_append cipher length]
  simp only [encrypt, count]

/-- One more block at the front. -/
theorem encrypt_cons (positive : 0 < size) (iv block : Block size) (rest : List UInt8) :
    (encrypt cipher iv (block.toList ++ rest)).1 =
      (cipher (xor iv block)).toList ++ (encrypt cipher (cipher (xor iv block)) rest).1 := by
  have count : (block.toList ++ rest).length / size = rest.length / size + 1 := by
    rw [List.length_append, block.toList_length, Nat.add_comm, Nat.add_div_right _ positive]
  rw [encrypt, count, encryptBlocks, toBlock_toList, List.drop_left' block.toList_length, encrypt]

theorem encrypt_nil (iv : Block size) : encrypt cipher iv [] = ([], iv) := by
  rw [encrypt, List.length_nil, Nat.zero_div]
  rfl

theorem length_encrypt (iv : Block size) (src : List UInt8) :
    (encrypt cipher iv src).1.length = src.length / size * size :=
  length_encryptBlocks ..

end DbBackup.Lib.Cbc
