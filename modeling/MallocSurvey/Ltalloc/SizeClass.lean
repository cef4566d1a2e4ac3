import Mathlib.Data.Nat.Log
import Mathlib.Data.Nat.Bitwise

/-! # Size classes and chunk geometry

`get_size_class`, `class_to_size` and `batch_size` of `ltalloc.cc` on a 64-bit
build with `LTALLOC_SIZE_CLASSES_SUBPOWER_OF_TWO` at its default of 2. -/

namespace MallocSurvey.Ltalloc

/-- `CHUNK_SIZE`. -/
def chunkSize : Nat := 65536

/-- `MAX_BLOCK_SIZE`, as redefined below the platform-specific part. -/
def maxBlockSize : Nat := min 65536 (chunkSize - chunkSize >>> 3)

/-- `NUMBER_OF_SIZE_CLASSES`. -/
def numberOfSizeClasses : Nat := (8 * 8 + 1) <<< 2

/-- `get_size_class`; sizes wrap at 64 bits. -/
def getSizeClass (size : Nat) : Nat :=
  let rounded := (size + 7) % 2 ^ 64 / 8 * 8
  let last := (rounded + (2 ^ 64 - 1)) % 2 ^ 64
  let index := Nat.log2 (last ||| 1)
  index <<< 2 + last >>> (index - 2)

/-- `class_to_size`. -/
def classToSize (sizeClass : Nat) : Nat :=
  let c := sizeClass - 3
  ((c &&& 3) ||| 4) <<< (c >>> 2 - 2)

/-- `batch_size`: one less than the number of blocks in a batch. -/
def batchSize (sizeClass : Nat) : Nat :=
  (65535 >>> (sizeClass >>> 2)) &&& 255

/-- `CHUNK_IS_SMALL`. -/
def chunkIsSmall (sizeClass : Nat) : Bool := decide (sizeClass < getSizeClass 16)

/-- `NUM_OF_BATCHES_IN_CHUNK_SM`. -/
def numOfBatchesInChunkSm : Nat := chunkSize / (8 * 256)

/-- `sizeof(ChunkSm)` or `sizeof(Chunk)`. -/
def chunkHeaderSize (sizeClass : Nat) : Nat :=
  if chunkIsSmall sizeClass then 320 else 64

/-- `numBlocksInChunk`. -/
def numBlocksInChunk (sizeClass : Nat) : Nat :=
  (chunkSize - chunkHeaderSize sizeClass) / classToSize sizeClass

/-- The classes of the sizes that are served from chunks. -/
def Served (sizeClass : Nat) : Prop := 15 ≤ sizeClass ∧ sizeClass ≤ 66

instance (sizeClass : Nat) : Decidable (Served sizeClass) :=
  inferInstanceAs (Decidable (_ ∧ _))

/-- What the rest of the development uses of a served class's geometry. -/
structure Geometry (sizeClass : Nat) : Prop where
  blockSize_pos : 0 < classToSize sizeClass
  blocks_pos : 0 < numBlocksInChunk sizeClass
  blocks_lt : numBlocksInChunk sizeClass * classToSize sizeClass + 64 ≤ chunkSize
  batch_le : batchSize sizeClass ≤ 255
  small_batch : chunkIsSmall sizeClass = true → batchSize sizeClass = 255
  small_blocks : chunkIsSmall sizeClass = true →
    numBlocksInChunk sizeClass < numOfBatchesInChunkSm * 256
  class_lt : sizeClass < numberOfSizeClasses

theorem Served.geometry {sizeClass : Nat} (served : Served sizeClass) :
    Geometry sizeClass := by
  have table : ∀ c < 67, 15 ≤ c → 0 < classToSize c ∧ 0 < numBlocksInChunk c ∧
      numBlocksInChunk c * classToSize c + 64 ≤ chunkSize ∧ batchSize c ≤ 255 ∧
      (chunkIsSmall c = true → batchSize c = 255) ∧
      (chunkIsSmall c = true → numBlocksInChunk c < numOfBatchesInChunkSm * 256) ∧
      c < numberOfSizeClasses := by
    decide
  obtain ⟨positive, blocks, inside, batch, smallBatch, smallBlocks, inTable⟩ :=
    table sizeClass (by unfold Served at served; omega) served.1
  exact ⟨positive, blocks, inside, batch, smallBatch, smallBlocks, inTable⟩

/-! ## The classes that requests get -/

theorem or_one_of_odd {last : Nat} (odd : last % 2 = 1) : last ||| 1 = last := by
  apply Nat.eq_of_testBit_eq
  intro index
  rw [Nat.testBit_or]
  cases index with
  | zero => simp [odd]
  | succ index => simp [Nat.testBit_succ]

theorem quarter_bounds {last : Nat} (large : 4 ≤ last) :
    2 ≤ last.log2 ∧ 4 ≤ last / 2 ^ (last.log2 - 2) ∧
      last / 2 ^ (last.log2 - 2) < 8 := by
  have nonzero : last ≠ 0 := by omega
  have low : 2 ^ last.log2 ≤ last := Nat.log2_self_le nonzero
  have high : last < 2 ^ (last.log2 + 1) := Nat.lt_log2_self
  have indexLarge : 2 ≤ last.log2 := (Nat.le_log2 nonzero).mpr (by omega)
  obtain ⟨octave, equal⟩ := Nat.exists_eq_add_of_le indexLarge
  rw [equal] at low high ⊢
  rw [Nat.add_sub_cancel_left, Nat.le_div_iff_mul_le (Nat.two_pow_pos _),
    Nat.div_lt_iff_lt_mul (Nat.two_pow_pos _)]
  rw [Nat.add_comm, Nat.pow_add] at low
  rw [Nat.add_comm 2, Nat.add_assoc, Nat.pow_add] at high
  omega

/-- The class in terms of the last byte of the rounded request. -/
theorem getSizeClass_eq {size last : Nat}
    (isLast : ((size + 7) % 2 ^ 64 / 8 * 8 + (2 ^ 64 - 1)) % 2 ^ 64 = last) :
    getSizeClass size = 4 * last.log2 + last / 2 ^ (last.log2 - 2) ∧ 7 ≤ last := by
  have odd : last % 2 = 1 := by omega
  refine ⟨?_, by omega⟩
  simp only [getSizeClass]
  rw [isLast, or_one_of_odd odd, Nat.shiftLeft_eq, Nat.shiftRight_eq_div_pow]
  omega

theorem getSizeClass_served {size : Nat} (positive : 0 < size)
    (small : size ≤ maxBlockSize) : Served (getSizeClass size) := by
  have bound : size ≤ 57344 := small
  obtain ⟨equal, lastLarge⟩ := getSizeClass_eq rfl
  generalize isLast : ((size + 7) % 2 ^ 64 / 8 * 8 + (2 ^ 64 - 1)) % 2 ^ 64 = last
    at equal lastLarge
  have lastSmall : last ≤ 57343 := by omega
  obtain ⟨indexLarge, low, high⟩ := @quarter_bounds last (by omega)
  have indexSmall : last.log2 < 16 := (Nat.log2_lt (by omega)).mpr (by omega)
  rw [Served, equal]
  by_cases isTop : last.log2 = 15
  · rw [isTop] at low high ⊢
    omega
  · by_cases isBottom : last.log2 = 2
    · rw [isBottom] at low high ⊢
      omega
    · omega

theorem not_served_of_large {size : Nat} (large : maxBlockSize < size)
    (inRange : size < 2 ^ 64) : ¬ Served (getSizeClass size) := by
  have bound : 57344 < size := large
  obtain ⟨equal, _⟩ := getSizeClass_eq rfl
  generalize isLast : ((size + 7) % 2 ^ 64 / 8 * 8 + (2 ^ 64 - 1)) % 2 ^ 64 = last
    at equal
  have lastLarge : 57344 ≤ last := by omega
  obtain ⟨_, low, _⟩ := @quarter_bounds last (by omega)
  have indexLarge : 15 ≤ last.log2 := (Nat.le_log2 (by omega)).mpr (by omega)
  intro served
  rw [Served, equal] at served
  have isTop : last.log2 = 15 := by omega
  rw [isTop] at served
  omega

end MallocSurvey.Ltalloc
