import Mathlib.Tactic.Linarith

/-!
Owns how a multipart upload cuts a file: the size of a part, the number of parts and the byte range
of each, computed in 64-bit integers as the uploader does.

Contract: `FileSize.parts_partition`. For a file that goes to the multipart upload and whose size
may be doubled in 64 bits, the ranges follow one another from 0 to the size.
-/

namespace DbBackup.Storage.Multipart

def s3MultipartThreshold : Int := 8 * 1024 * 1024

def s3MultipartPartSize : Int := 8 * 1024 * 1024

def s3MultipartConcurrency : Int := 10

def s3MultipartMaxParts : Int := 10000

/-- A result in a signed 64-bit integer. -/
def int64 (value : Int) : Int := value.bmod (2 ^ 64)

/-- What `Upload` hands to `uploadMultipart`, with room to double it. -/
structure FileSize where
  size : Int
  threshold : s3MultipartThreshold ≤ size
  room : 2 * size < 2 ^ 63

namespace FileSize

variable (file : FileSize)

/-! ### The numbers of the uploader -/

def partSize : Int :=
  let minPart := (int64 (int64 (file.size + s3MultipartMaxParts) - 1)).tdiv s3MultipartMaxParts
  if minPart > s3MultipartPartSize then minPart else s3MultipartPartSize

def numParts : Int := (int64 (int64 (file.size + file.partSize) - 1)).tdiv file.partSize

def numWorkers : Int :=
  if s3MultipartConcurrency > file.numParts then file.numParts else s3MultipartConcurrency

def off (i : Int) : Int := int64 (i * file.partSize)

def curLen (i : Int) : Int :=
  if int64 (file.off i + file.partSize) > file.size then int64 (file.size - file.off i)
  else file.partSize

/-! ### The part size -/

theorem int64_eq {value : Int} (low : -2 ^ 63 ≤ value) (high : value < 2 ^ 63) :
    int64 value = value := by
  refine Int.bmod_eq_of_le ?_ ?_
  · norm_num at low ⊢
    exact low
  · norm_num at high ⊢
    exact high

theorem threshold_le : 8388608 ≤ file.size := file.threshold

theorem partSize_eq :
    file.partSize = max 8388608 ((file.size + 9999) / 10000) := by
  have low := file.threshold_le
  have high := file.room
  have sum : int64 (file.size + s3MultipartMaxParts) = file.size + 10000 :=
    int64_eq (by unfold s3MultipartMaxParts; omega) (by unfold s3MultipartMaxParts; omega)
  have less : int64 (file.size + 10000 - 1) = file.size + 9999 := by
    rw [int64_eq (by omega) (by omega)]
    omega
  unfold partSize
  rw [sum, less, Int.tdiv_eq_ediv_of_nonneg (by omega)]
  unfold s3MultipartMaxParts s3MultipartPartSize
  dsimp only
  split <;> omega

theorem partSize_ge : 8388608 ≤ file.partSize := by
  rw [partSize_eq]
  omega

theorem partSize_le : file.partSize ≤ file.size := by
  have low := file.threshold_le
  rw [partSize_eq]
  omega

theorem size_le : file.size ≤ 10000 * file.partSize := by
  rw [partSize_eq]
  omega

/-! ### The number of parts -/

theorem numParts_eq : file.numParts = (file.size + file.partSize - 1) / file.partSize := by
  have low := file.threshold_le
  have high := file.room
  have least := file.partSize_ge
  have most := file.partSize_le
  have sum : int64 (file.size + file.partSize) = file.size + file.partSize :=
    int64_eq (by omega) (by omega)
  unfold numParts
  rw [sum, int64_eq (by omega) (by omega), Int.tdiv_eq_ediv_of_nonneg (by omega)]

theorem size_le_numParts_mul : file.size ≤ file.numParts * file.partSize := by
  have least := file.partSize_ge
  have next := Int.lt_ediv_add_one_mul_self (file.size + file.partSize - 1)
    (show 0 < file.partSize by omega)
  rw [← numParts_eq, Int.add_mul, Int.one_mul] at next
  omega

theorem numParts_mul_lt : file.numParts * file.partSize < file.size + file.partSize := by
  have least := file.partSize_ge
  have whole := Int.ediv_mul_le (file.size + file.partSize - 1)
    (show file.partSize ≠ 0 by omega)
  rw [← numParts_eq] at whole
  omega

theorem numParts_pos : 0 < file.numParts := by
  have low := file.threshold_le
  have least := file.partSize_ge
  have enough := file.size_le_numParts_mul
  by_contra none
  have : file.numParts * file.partSize ≤ 0 :=
    Int.mul_nonpos_of_nonpos_of_nonneg (by omega) (by omega)
  omega

theorem numParts_le : file.numParts ≤ 10000 := by
  have least := file.partSize_ge
  have enough := file.size_le
  have few := file.numParts_mul_lt
  have less : file.numParts * file.partSize < 10001 * file.partSize := by omega
  have := Int.lt_of_mul_lt_mul_right less (by omega)
  omega

theorem numWorkers_pos : 0 < file.numWorkers := by
  have some := file.numParts_pos
  unfold numWorkers s3MultipartConcurrency
  split <;> omega

/-! ### The ranges -/

theorem mul_partSize_lt {i : Int} (upper : i < file.numParts) : i * file.partSize < file.size := by
  have least := file.partSize_ge
  have few := file.numParts_mul_lt
  have step : (i + 1) * file.partSize ≤ file.numParts * file.partSize :=
    Int.mul_le_mul_of_nonneg_right (by omega) (by omega)
  rw [Int.add_mul, Int.one_mul] at step
  omega

theorem off_eq {i : Int} (lower : 0 ≤ i) (upper : i < file.numParts) :
    file.off i = i * file.partSize := by
  have least := file.partSize_ge
  have below := file.mul_partSize_lt upper
  have room := file.room
  have low := file.threshold_le
  have nonneg : 0 ≤ i * file.partSize := Int.mul_nonneg lower (by omega)
  exact int64_eq (by omega) (by omega)

theorem curLen_eq {i : Int} (lower : 0 ≤ i) (upper : i < file.numParts) :
    file.curLen i = min file.partSize (file.size - file.off i) := by
  have least := file.partSize_ge
  have most := file.partSize_le
  have room := file.room
  have below := file.mul_partSize_lt upper
  have nonneg : 0 ≤ i * file.partSize := Int.mul_nonneg lower (by omega)
  unfold curLen
  rw [file.off_eq lower upper, int64_eq (by omega) (by omega), int64_eq (by omega) (by omega)]
  split <;> omega

/-- The ranges of the parts follow one another from 0 to the size; none is empty, and all but the
last have 8 MiB or more. -/
structure Partition : Prop where
  first : file.off 0 = 0
  next : ∀ i, 0 ≤ i → i + 1 < file.numParts → file.off (i + 1) = file.off i + file.curLen i
  last : file.off (file.numParts - 1) + file.curLen (file.numParts - 1) = file.size
  pos : ∀ i, 0 ≤ i → i < file.numParts → 0 < file.curLen i
  large : ∀ i, 0 ≤ i → i + 1 < file.numParts → 8 * 1024 * 1024 ≤ file.curLen i

theorem curLen_of_next {i : Int} (lower : 0 ≤ i) (more : i + 1 < file.numParts) :
    file.curLen i = file.partSize := by
  have below := file.mul_partSize_lt more
  rw [Int.add_mul, Int.one_mul] at below
  rw [file.curLen_eq lower (by omega), file.off_eq lower (by omega)]
  omega

theorem parts_partition : file.Partition where
  first := by rw [file.off_eq (Int.le_refl 0) file.numParts_pos, Int.zero_mul]
  next i lower more := by
    rw [file.curLen_of_next lower more, file.off_eq (by omega) more,
      file.off_eq lower (by omega), Int.add_mul, Int.one_mul]
  last := by
    have some := file.numParts_pos
    have all := file.size_le_numParts_mul
    have split : (file.numParts - 1) * file.partSize =
        file.numParts * file.partSize - file.partSize := by rw [Int.sub_mul, Int.one_mul]
    rw [file.curLen_eq (by omega) (by omega), file.off_eq (by omega) (by omega), split]
    omega
  pos i lower upper := by
    have least := file.partSize_ge
    have below := file.mul_partSize_lt upper
    rw [file.curLen_eq lower upper, file.off_eq lower upper]
    omega
  large i lower more := by
    rw [file.curLen_of_next lower more]
    exact file.partSize_ge

end FileSize

end DbBackup.Storage.Multipart
