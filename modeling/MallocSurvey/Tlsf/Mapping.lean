import MallocSurvey.Library.LogLinear

/-! # Size classes of `tlsf`

The two builds of `tlsf/tlsf.c`. A bit search returns `none` where the function returns
`-1`, and a class is `none` where a shift is undefined. -/

namespace MallocSurvey.Tlsf

open Library

/-- `TLSF_64BIT` -/
inductive Arch where
  | bits32
  | bits64
deriving DecidableEq

/-- The bits of a `size_t`. -/
def Arch.wordBits : Arch → Nat
  | .bits32 => 32
  | .bits64 => 64

/-- `SL_INDEX_COUNT_LOG2` -/
def slIndexCountLog2 : Nat := 5

/-- `ALIGN_SIZE_LOG2` -/
def alignSizeLog2 : Arch → Nat
  | .bits64 => 3
  | .bits32 => 2

/-- `ALIGN_SIZE`, the size of a pointer and of a `size_t` as well -/
def alignSize (arch : Arch) : Nat := 1 <<< alignSizeLog2 arch

/-- `FL_INDEX_MAX` -/
def flIndexMax : Arch → Nat
  | .bits64 => 32
  | .bits32 => 30

/-- `SL_INDEX_COUNT` -/
def slIndexCount : Nat := 1 <<< slIndexCountLog2

/-- `FL_INDEX_SHIFT` -/
def flIndexShift (arch : Arch) : Nat := slIndexCountLog2 + alignSizeLog2 arch

/-- `FL_INDEX_COUNT` -/
def flIndexCount (arch : Arch) : Nat := flIndexMax arch - flIndexShift arch + 1

/-- `SMALL_BLOCK_SIZE` -/
def smallBlockSize (arch : Arch) : Nat := 1 <<< flIndexShift arch

/-- `sizeof(block_header_t)` -/
def sizeofHeader (arch : Arch) : Nat := 4 * alignSize arch

/-- `block_header_overhead` -/
def blockHeaderOverhead (arch : Arch) : Nat := alignSize arch

/-- `block_size_min` -/
def blockSizeMin (arch : Arch) : Nat := sizeofHeader arch - alignSize arch

/-- `block_size_max` -/
def blockSizeMax (arch : Arch) : Nat := 1 <<< flIndexMax arch

section Words

variable (arch : Arch)

/-- Addition of `size_t` values. -/
def addWord (left right : Nat) : Nat := (left + right) % 2 ^ arch.wordBits

/-- Subtraction of `size_t` values. -/
def subWord (left right : Nat) : Nat := (left + 2 ^ arch.wordBits - right) % 2 ^ arch.wordBits

def alignUp (x align : Nat) : Nat :=
  (BitVec.ofNat arch.wordBits (x + (align - 1)) &&&
    ~~~BitVec.ofNat arch.wordBits (align - 1)).toNat

def alignDown (x align : Nat) : Nat := x - (x &&& (align - 1))

def adjustRequestSize (size align : Nat) : Nat :=
  if size ≠ 0 ∧ size < blockSizeMax arch then
    max (alignUp arch size align) (blockSizeMin arch)
  else 0

/-- `tlsf_fls` -/
def tlsfFls (word : Nat) : Option Nat := if word = 0 then none else some (Nat.log2 word)

def tlsfFlsSizet (size : Nat) : Option Nat :=
  match arch with
  | .bits32 => tlsfFls size
  | .bits64 =>
      let high := size >>> 32
      if high ≠ 0 then (tlsfFls high).map (32 + ·) else tlsfFls (size % 2 ^ 32)

def mappingInsert (size : Nat) : Option (Nat × Nat) :=
  if size < smallBlockSize arch then
    -- small blocks are in the first list
    some (0, size / (smallBlockSize arch / slIndexCount))
  else do
    let fl ← tlsfFlsSizet arch size
    let sl := size >>> (fl - slIndexCountLog2) ^^^ 1 <<< slIndexCountLog2
    some (fl - (flIndexShift arch - 1), sl)

/-- The `1` that is shifted is an `int`. -/
def mappingSearch (size : Nat) : Option (Nat × Nat) :=
  if 1 <<< slIndexCountLog2 ≤ size then do
    let fl ← tlsfFlsSizet arch size
    if fl - slIndexCountLog2 < 31 then
      let round := 1 <<< (fl - slIndexCountLog2) - 1
      mappingInsert arch (addWord arch size round)
    else none
  else mappingInsert arch size

/-- `pool_bytes` of `tlsf_add_pool` -/
def poolBytes (bytes : Nat) : Nat :=
  alignDown (subWord arch bytes (2 * blockHeaderOverhead arch)) (alignSize arch)

/-- What `tlsf_add_pool` accepts of a size. -/
def Accepted (bytes : Nat) : Prop :=
  blockSizeMin arch ≤ poolBytes arch bytes ∧ poolBytes arch bytes ≤ blockSizeMax arch

instance (bytes : Nat) : Decidable (Accepted arch bytes) :=
  inferInstanceAs (Decidable (_ ∧ _))

end Words

/-- The second class is as good for a request as the first one. -/
def Serves (wanted found : Nat × Nat) : Prop :=
  wanted.1 < found.1 ∨ wanted.1 = found.1 ∧ wanted.2 ≤ found.2

instance (wanted found : Nat × Nat) : Decidable (Serves wanted found) :=
  inferInstanceAs (Decidable (_ ∨ _))

/-- The class is one of the bitmaps and lists. -/
def InTables (arch : Arch) (index : Option (Nat × Nat)) : Prop :=
  ∃ fl sl, index = some (fl, sl) ∧ fl < flIndexCount arch ∧ sl < slIndexCount

example : mappingSearch .bits64 200 = some (0, 25) := by decide

variable {arch : Arch} {size : Nat}

theorem tlsfFls_eq {word : Nat} (nonzero : word ≠ 0) : tlsfFls word = some (Nat.log2 word) :=
  if_neg nonzero

theorem tlsfFlsSizet_eq (nonzero : size ≠ 0) :
    tlsfFlsSizet arch size = some (Nat.log2 size) := by
  unfold tlsfFlsSizet
  cases arch with
  | bits32 => exact tlsfFls_eq nonzero
  | bits64 =>
      dsimp only
      rw [Nat.shiftRight_eq_div_pow]
      split
      · next high =>
          rw [tlsfFls_eq high, Option.map_some, Option.some.injEq]
          obtain ⟨low, below⟩ := LogLinear.log2_bounds high
          generalize Nat.log2 (size / 2 ^ 32) = rest at low below
          symm
          rw [Nat.log2_eq_iff nonzero, Nat.add_assoc, Nat.pow_add, Nat.pow_add]
          omega
      · next low => rw [Nat.mod_eq_of_lt (by omega), tlsfFls_eq nonzero]

theorem xor_leading {value : Nat} (low : 32 ≤ value) (high : value < 64) :
    value ^^^ 32 = value - 32 := by
  have all : ∀ value < 64, 32 ≤ value → value ^^^ 32 = value - 32 := by decide
  exact all value high low

theorem smallBlockSize_eq : smallBlockSize arch = 2 ^ (alignSizeLog2 arch + 5) := by
  cases arch with
  | bits32 => rfl
  | bits64 => rfl

theorem mappingInsert_eq (arch : Arch) (size : Nat) :
    mappingInsert arch size =
      some (LogLinear.level (alignSizeLog2 arch) 5 size,
        LogLinear.part (alignSizeLog2 arch) 5 size) := by
  unfold mappingInsert LogLinear.level LogLinear.part
  rw [smallBlockSize_eq]
  split
  · have granule : 2 ^ (alignSizeLog2 arch + 5) / slIndexCount = 2 ^ alignSizeLog2 arch := by
      cases arch with
      | bits32 => rfl
      | bits64 => rfl
    rw [granule]
  · next large =>
      have lowest : 2 ^ 5 ≤ 2 ^ (alignSizeLog2 arch + 5) :=
        Nat.pow_le_pow_right (by decide) (Nat.le_add_left _ _)
      have nonzero := LogLinear.ne_zero_of_le (Nat.le_of_not_lt large)
      have high := LogLinear.le_log2 (Nat.le_of_not_lt large)
      have bounds := LogLinear.div_bounds (lowest.trans (Nat.le_of_not_lt large))
      rw [tlsfFlsSizet_eq nonzero, Option.bind_eq_bind, Option.bind_some]
      dsimp only [slIndexCountLog2]
      rw [Nat.shiftRight_eq_div_pow, show 1 <<< 5 = 32 from rfl, xor_leading bounds.1 bounds.2]
      congr 2
      unfold flIndexShift slIndexCountLog2
      omega

/-- Any class has a second level. -/
theorem inTables_mappingInsert : InTables arch (mappingInsert arch size) ↔
    size < blockSizeMax arch := by
  have isMax : blockSizeMax arch =
      2 ^ (alignSizeLog2 arch + 5 + (flIndexMax arch - flIndexShift arch)) := by
    cases arch with
    | bits32 => rfl
    | bits64 => rfl
  rw [isMax, ← LogLinear.level_lt_iff, mappingInsert_eq]
  constructor
  · rintro ⟨fl, sl, isClass, flLt, _⟩
    cases isClass
    exact flLt
  · exact fun flLt => ⟨_, _, rfl, flLt, LogLinear.part_lt size⟩

/-- Serving is the order of the classes. -/
theorem serves_mappingInsert {wanted found : Nat × Nat} {length : Nat}
    (isWanted : mappingInsert arch size = some wanted)
    (isFound : mappingInsert arch length = some found) :
    Serves wanted found ↔
      LogLinear.index (alignSizeLog2 arch) 5 size ≤
        LogLinear.index (alignSizeLog2 arch) 5 length := by
  rw [mappingInsert_eq] at isWanted isFound
  cases isWanted
  cases isFound
  exact (LogLinear.index_lex size length).symm

/-! ## Requests -/

/-- What `adjust_request_size` returns of a size it accepts. -/
theorem adjustRequestSize_of_lt {align : Nat} (nonzero : size ≠ 0)
    (small : size < blockSizeMax arch) :
    adjustRequestSize arch size align = max (alignUp arch size align) (blockSizeMin arch) :=
  if_pos ⟨nonzero, small⟩

theorem alignUp_eq {power : Nat} (bounded : power < arch.wordBits)
    (fits : size + (2 ^ power - 1) < 2 ^ arch.wordBits) :
    alignUp arch size (2 ^ power) = (size + (2 ^ power - 1)) / 2 ^ power * 2 ^ power := by
  have masked : 2 ^ power - 1 < 2 ^ arch.wordBits := by omega
  unfold alignUp
  apply Nat.eq_of_testBit_eq
  intro bit
  rw [← BitVec.getLsbD, BitVec.getLsbD_and, BitVec.getLsbD_not, BitVec.getLsbD_ofNat,
    BitVec.getLsbD_ofNat, Nat.testBit_two_pow_sub_one, ← Nat.shiftRight_eq_div_pow,
    ← Nat.shiftLeft_eq, Nat.testBit_shiftLeft, Nat.testBit_shiftRight]
  by_cases inWord : bit < arch.wordBits
  · by_cases low : bit < power
    · simp [inWord, low]
    · have high := Nat.le_of_not_lt low
      simp [inWord, low, high, Nat.add_sub_cancel' high]
  · have clear : (size + (2 ^ power - 1)).testBit bit = false :=
      Nat.testBit_lt_two_pow (fits.trans_le (Nat.pow_le_pow_right (by decide) (by omega)))
    have notLow : ¬ bit < power := by omega
    simp [inWord, notLow, Nat.add_sub_cancel' (Nat.le_of_not_lt notLow), clear]

/-- A request that is not rejected is rounded up to a multiple of the alignment. -/
theorem adjustRequestSize_spec {power : Nat} (accepted : adjustRequestSize arch size (2 ^ power) ≠ 0)
    (atLeast : alignSizeLog2 arch ≤ power) (bounded : power < arch.wordBits) :
    adjustRequestSize arch size (2 ^ power) =
        max ((size + (2 ^ power - 1)) / 2 ^ power * 2 ^ power) (blockSizeMin arch) ∧
      size ≤ adjustRequestSize arch size (2 ^ power) ∧
      2 ^ alignSizeLog2 arch ∣ adjustRequestSize arch size (2 ^ power) ∧
      adjustRequestSize arch size (2 ^ power) ≤ 2 ^ (arch.wordBits - 1) := by
  unfold adjustRequestSize at *
  split at accepted
  · next request =>
      have small : size < 2 ^ (arch.wordBits - 1) := by
        have less : blockSizeMax arch ≤ 2 ^ (arch.wordBits - 1) := by cases arch <;> decide
        omega
      have top : 2 ^ arch.wordBits = 2 ^ (arch.wordBits - 1) * 2 := by cases arch <;> rfl
      have lower : 2 ^ power ≤ 2 ^ (arch.wordBits - 1) :=
        Nat.pow_le_pow_right (by decide) (by omega)
      have positive : 0 < 2 ^ power := Nat.two_pow_pos power
      have isUp : alignUp arch size (2 ^ power) =
          (size + (2 ^ power - 1)) / 2 ^ power * 2 ^ power := alignUp_eq bounded (by omega)
      have divided := Nat.div_add_mod (size + (2 ^ power - 1)) (2 ^ power)
      have remainder := Nat.mod_lt (size + (2 ^ power - 1)) positive
      rw [Nat.mul_comm, ← isUp] at divided
      rw [if_pos request]
      refine ⟨by rw [isUp], le_max_of_le_left (by omega), ?_, max_le ?_ ?_⟩
      · rcases max_choice (alignUp arch size (2 ^ power)) (blockSizeMin arch) with isMax | isMax
        · rw [isMax, isUp]
          exact Dvd.dvd.mul_left (Nat.pow_dvd_pow 2 atLeast) _
        · rw [isMax]
          cases arch <;> decide
      · obtain ⟨multiple, isMultiple⟩ := Nat.pow_dvd_pow 2 (show power ≤ arch.wordBits - 1 by omega)
        have quotient : (size + (2 ^ power - 1)) / 2 ^ power < multiple + 1 := by
          rw [Nat.div_lt_iff_lt_mul positive, Nat.succ_mul, Nat.mul_comm, ← isMultiple]
          omega
        rw [isUp, isMultiple, Nat.mul_comm]
        exact Nat.mul_le_mul_left _ (Nat.le_of_lt_succ quotient)
      · cases arch <;> decide
  · exact absurd rfl accepted

/-- The largest request whose rounded class is in the tables. -/
def largestRequest (arch : Arch) : Nat := blockSizeMax arch - blockSizeMax arch / 64

theorem mappingSearch_eq (shift : Nat.log2 size < 36) (bounded : size ≤ 2 ^ (arch.wordBits - 1)) :
    mappingSearch arch size = mappingInsert arch (LogLinear.roundUp 5 size) := by
  unfold mappingSearch LogLinear.roundUp
  rw [show 1 <<< slIndexCountLog2 = 2 ^ 5 from rfl]
  split
  · next rounds =>
      have nonzero := LogLinear.ne_zero_of_le rounds
      have low := Nat.log2_self_le nonzero
      have fits : size + (2 ^ (Nat.log2 size - 5) - 1) < 2 ^ arch.wordBits := by
        have round : 2 ^ (Nat.log2 size - 5) ≤ 2 ^ 30 :=
          Nat.pow_le_pow_right (by decide) (by omega)
        cases arch with
        | bits32 =>
            simp only [Arch.wordBits] at *
            omega
        | bits64 =>
            simp only [Arch.wordBits] at *
            omega
      have allowed : Nat.log2 size - slIndexCountLog2 < 31 := by
        unfold slIndexCountLog2
        omega
      rw [tlsfFlsSizet_eq nonzero, Option.bind_eq_bind, Option.bind_some, if_pos allowed]
      dsimp only
      rw [addWord, Nat.one_shiftLeft, slIndexCountLog2, Nat.mod_eq_of_lt fits]
  · rfl

theorem inTables_mappingSearch (bounded : size ≤ 2 ^ (arch.wordBits - 1)) :
    InTables arch (mappingSearch arch size) ↔ size ≤ largestRequest arch := by
  by_cases shift : Nat.log2 size < 36
  · rw [mappingSearch_eq shift bounded, inTables_mappingInsert]
    cases arch with
    | bits32 => exact LogLinear.roundUp_lt_iff (show 5 ≤ 29 by decide)
    | bits64 => exact LogLinear.roundUp_lt_iff (show 5 ≤ 31 by decide)
  · have large : 2 ^ 36 ≤ size := by
      by_cases zero : size = 0
      · rw [zero] at shift
        exact absurd (by decide) shift
      · exact (Nat.le_log2 zero).mp (Nat.le_of_not_lt shift)
    have undefined : mappingSearch arch size = none := by
      have nonzero : size ≠ 0 := by omega
      unfold mappingSearch
      rw [if_pos (show 1 <<< slIndexCountLog2 ≤ size by
          change 32 ≤ size
          omega),
        tlsfFlsSizet_eq nonzero, Option.bind_eq_bind, Option.bind_some, if_neg]
      unfold slIndexCountLog2
      omega
    have exceeds : largestRequest arch < 2 ^ 36 := by cases arch <;> decide
    refine iff_of_false ?_ (by omega)
    rintro ⟨fl, sl, isClass, _⟩
    rw [undefined] at isClass
    cases isClass

/-- The classes for a request and a pool are in the tables, larger sizes are not in lower
classes, and what the search finds holds the request. -/
structure GoodMapping (arch : Arch) (size adjust poolBytes : Nat) : Prop where
  search : InTables arch (mappingSearch arch adjust)
  insert : ∀ length ≤ poolBytes, InTables arch (mappingInsert arch length)
  mono : ∀ left right lower higher, left ≤ right → mappingInsert arch left = some lower →
    mappingInsert arch right = some higher → Serves lower higher
  fit : ∀ length wanted found, mappingSearch arch adjust = some wanted →
    mappingInsert arch length = some found → Serves wanted found → size ≤ length

/-- For an accepted request and an accepted pool, all classes are right if and only if the
aligned request does not carry out of the tables and the pool is not the largest one. -/
theorem goodMapping_iff (arch : Arch) (size power bytes : Nat)
    (accepted : adjustRequestSize arch size (2 ^ power) ≠ 0)
    (atLeast : alignSizeLog2 arch ≤ power) (bounded : power < arch.wordBits)
    (poolAccepted : Accepted arch bytes) :
    GoodMapping arch size (adjustRequestSize arch size (2 ^ power)) (poolBytes arch bytes) ↔
      (size + (2 ^ power - 1)) / 2 ^ power * 2 ^ power ≤ largestRequest arch ∧
        poolBytes arch bytes ≠ blockSizeMax arch := by
  obtain ⟨isMax, holds, aligned, inHalf⟩ := adjustRequestSize_spec accepted atLeast bounded
  have least : blockSizeMin arch ≤ largestRequest arch := by cases arch <;> decide
  have sameRange : (size + (2 ^ power - 1)) / 2 ^ power * 2 ^ power ≤ largestRequest arch ↔
      adjustRequestSize arch size (2 ^ power) ≤ largestRequest arch := by
    rw [isMax, max_le_iff]
    exact (and_iff_left least).symm
  rw [sameRange]
  constructor
  · intro good
    refine ⟨(inTables_mappingSearch inHalf).mp good.search, ?_⟩
    exact Nat.ne_of_lt (inTables_mappingInsert.mp (good.insert _ (Nat.le_refl _)))
  · rintro ⟨inRange, notLargest⟩
    have below : poolBytes arch bytes < blockSizeMax arch :=
      Nat.lt_of_le_of_ne poolAccepted.2 notLargest
    exact
      { search := (inTables_mappingSearch inHalf).mpr inRange
        insert := fun length le => inTables_mappingInsert.mpr (le.trans_lt below)
        mono := by
          intro left right lower higher le isLower isHigher
          exact (serves_mappingInsert isLower isHigher).mpr (LogLinear.index_mono le)
        fit := by
          intro length wanted found isWanted isFound serves
          have shift : Nat.log2 (adjustRequestSize arch size (2 ^ power)) < 36 := by
            rw [Nat.log2_lt accepted]
            refine inRange.trans_lt ?_
            cases arch <;> decide
          rw [mappingSearch_eq shift inHalf] at isWanted
          have le := LogLinear.le_of_index_roundUp_le aligned
            ((serves_mappingInsert isWanted isFound).mp serves)
          exact holds.trans le }

theorem goodMapping_iff_oneByte :
    GoodMapping .bits64 1 (adjustRequestSize .bits64 1 (2 ^ 3)) (poolBytes .bits64 4112) ↔
      (1 + (2 ^ 3 - 1)) / 2 ^ 3 * 2 ^ 3 ≤ largestRequest .bits64 ∧
        poolBytes .bits64 4112 ≠ blockSizeMax .bits64 :=
  goodMapping_iff .bits64 1 3 4112 (by decide) (by decide) (by decide) (by decide)

/-- A pool of `block_size_max` bytes is accepted and its block has no list. -/
theorem largestPool_outside : Accepted .bits64 (2 ^ 32 + 16) ∧
    ¬ GoodMapping .bits64 1 (adjustRequestSize .bits64 1 (2 ^ 3))
      (poolBytes .bits64 (2 ^ 32 + 16)) := by
  have isMax : poolBytes .bits64 (2 ^ 32 + 16) = 2 ^ 32 := by decide
  refine ⟨by decide, ?_⟩
  intro good
  have inTables := good.insert _ (Nat.le_refl _)
  rw [isMax] at inTables
  exact absurd (inTables_mappingInsert.mp inTables) (by decide)

end MallocSurvey.Tlsf
