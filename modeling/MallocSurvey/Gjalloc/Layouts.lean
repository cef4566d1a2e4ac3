import MallocSurvey.Gjalloc.Allocator
import MallocSurvey.Gjalloc.LogPages
import Mathlib.Data.Nat.Log

/-! # Aligned layouts

`ba_align_layout` fills the least power of two that has room for the page and its overhead. -/

namespace MallocSurvey.Gjalloc

variable {blockSize blocks power v : Nat}

/-- A page of some blocks with the overhead of its allocation. -/
def pageBytes (blockSize blocks : Nat) : Nat := baPageSize + blocks * blockSize + mallocOverhead

/-- No sum of `ba_align_layout` wraps, and neither does what it rounds up to. -/
def AlignFits (blockSize blocks : Nat) : Prop :=
  ∃ power < 32, pageBytes blockSize blocks ≤ 2 ^ power

/-- The blocks that fit into a power of two. -/
def blocksIn (blockSize power : Nat) : Nat := (2 ^ power - pageBytes blockSize 0) / blockSize

/-! ## Rounding up -/

theorem clog_eq_of_lt (above : 2 ^ power < v) (atMost : v ≤ 2 ^ (power + 1)) :
    Nat.clog 2 v = power + 1 := by
  have upper : Nat.clog 2 v ≤ power + 1 := (Nat.clog_le_iff_le_pow (by decide)).mpr atMost
  have lower : power < Nat.clog 2 v := (Nat.lt_clog_iff_pow_lt (by decide)).mpr above
  omega

/-- What a size is rounded up to. -/
theorem roundedUp_eq (nonzero : v ≠ 0) (fits : v ≤ 2 ^ 31) :
    (if v &&& (v - 1) ≠ 0 then roundUp32 v else v) = 2 ^ Nat.clog 2 v := by
  have isPowerIff := @Nat.and_sub_one_eq_zero_iff_isPowerOfTwo v nonzero
  by_cases isPower : v &&& (v - 1) = 0
  · rw [if_neg (not_not.mpr isPower)]
    obtain ⟨power, rfl⟩ := isPowerIff.mp isPower
    rw [Nat.clog_pow 2 power (by decide)]
  · have notPower : ∀ power, v ≠ 2 ^ power :=
      fun power isEq => isPower (isPowerIff.mpr ⟨power, isEq⟩)
    have below : 2 ^ v.log2 < v :=
      Nat.lt_of_le_of_ne (Nat.log2_self_le nonzero) (notPower _).symm
    have small : v < 2 ^ 31 := Nat.lt_of_le_of_ne fits (notPower 31)
    rw [if_pos isPower, roundUp32_eq nonzero small,
      clog_eq_of_lt below (le_firstBlocks v)]
    rfl

/-! ## Layouts -/

theorem pageBytes_pred (nonempty : 0 < blocks) :
    baPageSize + (blocks - 1) * blockSize + blockSize + mallocOverhead =
      pageBytes blockSize blocks := by
  have isNext : (blocks - 1) * blockSize + blockSize = blocks * blockSize := by
    rw [← Nat.succ_mul, Nat.succ_eq_add_one, Nat.sub_add_cancel nonempty]
  unfold pageBytes
  omega

theorem baInitLayout_eq (wide : 0 < blockSize) (nonempty : 0 < blocks)
    (fits : pageBytes blockSize blocks < 2 ^ 32) :
    baInitLayout blockSize blocks =
      ⟨baPageSize + (blocks - 1) * blockSize, blockSize, blocks⟩ := by
  have isPage := @pageBytes_pred blockSize blocks nonempty
  have few : blocks ≤ blocks * blockSize := Nat.le_mul_of_pos_right blocks wide
  have isPred : (blocks + 2 ^ 32 - 1) % 2 ^ 32 = blocks - 1 := by
    unfold pageBytes at fits
    omega
  have inRange : baPageSize + (blocks - 1) * blockSize < 2 ^ 32 := by omega
  unfold baInitLayout
  rw [isPred, Nat.mod_eq_of_lt (by omega)]

/-- The page of an aligned layout has the blocks that fit. -/
theorem baAlignLayout_eq (wide : 0 < blockSize) (nonempty : 0 < blocks)
    (fits : pageBytes blockSize blocks ≤ 2 ^ 31) :
    baAlignLayout (baInitLayout blockSize blocks) =
      baInitLayout blockSize (blocksIn blockSize (Nat.clog 2 (pageBytes blockSize blocks))) := by
  have isPage := @pageBytes_pred blockSize blocks nonempty
  have inRange : pageBytes blockSize blocks < 2 ^ 32 := by omega
  have nonzero : pageBytes blockSize blocks ≠ 0 := by
    unfold pageBytes baPageSize
    omega
  have atLeast := Nat.le_pow_clog (b := 2) (by decide) (pageBytes blockSize blocks)
  have atMost : 2 ^ Nat.clog 2 (pageBytes blockSize blocks) ≤ 2 ^ 31 :=
    Nat.pow_le_pow_right (by decide) ((Nat.clog_le_iff_le_pow (by decide)).mpr fits)
  have isHeader : pageBytes blockSize 0 = mallocOverhead + baPageSize := by
    unfold pageBytes
    omega
  have isLess : pageBytes blockSize 0 ≤ pageBytes blockSize blocks := by
    unfold pageBytes
    omega
  have isRest : (2 ^ Nat.clog 2 (pageBytes blockSize blocks) + 2 ^ 32 -
      (mallocOverhead + baPageSize)) % 2 ^ 32 =
        2 ^ Nat.clog 2 (pageBytes blockSize blocks) - pageBytes blockSize 0 := by
    omega
  rw [baInitLayout_eq wide nonempty inRange]
  unfold baAlignLayout
  dsimp only
  rw [isPage, Nat.mod_eq_of_lt inRange, roundedUp_eq nonzero fits, isRest]
  rfl

theorem blocksIn_spec (wide : 0 < blockSize) (room : pageBytes blockSize blocks ≤ 2 ^ power) :
    blocks ≤ blocksIn blockSize power ∧
      pageBytes blockSize (blocksIn blockSize power) ≤ 2 ^ power ∧
      2 ^ power < pageBytes blockSize (blocksIn blockSize power + 1) := by
  have isDivMod := Nat.div_add_mod (2 ^ power - pageBytes blockSize 0) blockSize
  have rest := Nat.mod_lt (2 ^ power - pageBytes blockSize 0) wide
  have isBlocks : blocksIn blockSize power = (2 ^ power - pageBytes blockSize 0) / blockSize := rfl
  rw [← isBlocks, Nat.mul_comm] at isDivMod
  refine ⟨?_, ?_, ?_⟩
  · rw [isBlocks, Nat.le_div_iff_mul_le wide]
    unfold pageBytes at room ⊢
    omega
  · unfold pageBytes at *
    omega
  · unfold pageBytes at *
    rw [Nat.succ_mul]
    omega

theorem pageSize_overhead (wide : 0 < blockSize) (nonempty : 0 < blocks)
    (fits : pageBytes blockSize blocks < 2 ^ 32) :
    (baInitLayout blockSize blocks).pageSize + mallocOverhead = pageBytes blockSize blocks := by
  rw [baInitLayout_eq wide nonempty fits]
  exact pageBytes_pred nonempty

/-- An aligned layout keeps its power of two. -/
theorem clog_pageBytes (wide : 0 < blockSize) :
    Nat.clog 2 (pageBytes blockSize
        (blocksIn blockSize (Nat.clog 2 (pageBytes blockSize blocks)))) =
      Nat.clog 2 (pageBytes blockSize blocks) := by
  have atLeast := Nat.le_pow_clog (b := 2) (by decide) (pageBytes blockSize blocks)
  obtain ⟨more, atMost, _⟩ := blocksIn_spec wide atLeast
  have larger : pageBytes blockSize blocks ≤ pageBytes blockSize
      (blocksIn blockSize (Nat.clog 2 (pageBytes blockSize blocks))) := by
    have product := Nat.mul_le_mul_right blockSize more
    unfold pageBytes at product ⊢
    omega
  apply Nat.le_antisymm
  · exact (Nat.clog_le_iff_le_pow (by decide)).mpr atMost
  · exact Nat.clog_mono_right 2 larger

/-- The last block lies below the power of two of the magnitude. -/
theorem offset_lt_magnitude {l : Layout} (nonempty : 0 < l.blockSize)
    (fits : l.pageSize < 2 ^ 31) :
    l.offset < 2 ^ Nat.log2 (roundUp32 (l.pageSize % 2 ^ 32)) := by
  have isPage : l.pageSize = l.offset + l.blockSize := rfl
  have rounded := roundUp32_eq (v := l.pageSize) (by omega) fits
  have below := le_firstBlocks l.pageSize
  rw [Nat.mod_eq_of_lt (by omega), rounded]
  unfold firstBlocks at below ⊢
  rw [Nat.log2_two_pow]
  omega

/-- `ba_align_layout` takes all blocks that fit into the least power of two with room for the
page and its overhead, and `ba_init` has a magnitude for the offset that results. -/
theorem baAlignLayout_enlarges (wide : 0 < blockSize) (nonempty : 0 < blocks)
    (fits : AlignFits blockSize blocks) :
    ∃ aligned, baAlignLayout (baInitLayout blockSize blocks) = aligned ∧
      blocks ≤ aligned.blocks ∧ aligned.blockSize = blockSize ∧
      (∃ power < 32, pageBytes blockSize blocks ≤ 2 ^ power ∧
        2 ^ power < 2 * pageBytes blockSize blocks ∧
        aligned.pageSize + mallocOverhead ≤ 2 ^ power ∧
        2 ^ power < aligned.pageSize + aligned.blockSize + mallocOverhead) ∧
      aligned.offset < 2 ^ Nat.log2 (roundUp32 (aligned.pageSize % 2 ^ 32)) ∧
      baAlignLayout aligned = aligned ∧
      ∀ memory header next prev a, blockHeaderSize ≤ blockSize →
        baInit blockSize blocks memory header next prev = some a →
          a.l = aligned ∧ a.l.offset < 2 ^ a.magnitude := by
  obtain ⟨bound, small, isBound⟩ := fits
  have inRange : pageBytes blockSize blocks ≤ 2 ^ 31 :=
    Nat.le_trans isBound (Nat.pow_le_pow_right (by decide) (by omega))
  obtain ⟨power, isPower⟩ : ∃ power, Nat.clog 2 (pageBytes blockSize blocks) = power := ⟨_, rfl⟩
  have atLeast := Nat.le_pow_clog (b := 2) (by decide) (pageBytes blockSize blocks)
  have atMost : power ≤ 31 := by
    rw [← isPower]
    exact (Nat.clog_le_iff_le_pow (by decide)).mpr inRange
  have isAligned := baAlignLayout_eq wide nonempty inRange
  have keeps := @clog_pageBytes blockSize blocks wide
  rw [isPower] at atLeast isAligned keeps
  obtain ⟨more, room, full⟩ := blocksIn_spec wide atLeast
  have notMore : 2 ^ power ≤ 2 ^ 31 := Nat.pow_le_pow_right (by decide) atMost
  have newPage := @pageSize_overhead blockSize (blocksIn blockSize power) wide (by omega) (by omega)
  have isLayout := @baInitLayout_eq blockSize (blocksIn blockSize power) wide (by omega) (by omega)
  have again := @baAlignLayout_eq blockSize (blocksIn blockSize power) wide (by omega) (by omega)
  have offsetBelow : (baInitLayout blockSize (blocksIn blockSize power)).offset <
      2 ^ Nat.log2 (roundUp32 ((baInitLayout blockSize (blocksIn blockSize power)).pageSize %
        2 ^ 32)) := by
    apply offset_lt_magnitude
    · rw [isLayout]
      exact wide
    · unfold mallocOverhead at newPage
      omega
  rw [keeps] at again
  refine ⟨_, isAligned, ?_, ?_, ⟨power, by omega, atLeast, ?_, ?_, ?_⟩, offsetBelow, again, ?_⟩
  · rw [isLayout]
    exact more
  · rw [isLayout]
  · have large : 1 < pageBytes blockSize blocks := by
      unfold pageBytes baPageSize
      omega
    have previous := Nat.pow_pred_clog_lt_self (b := 2) (by decide) large
    have positive := Nat.clog_pos (b := 2) (by decide) large
    have isNext : power = power - 1 + 1 := by omega
    rw [isPower, Nat.pred_eq_sub_one] at previous
    rw [isNext, Nat.pow_succ]
    omega
  · rw [newPage]
    exact room
  · have isSize : (baInitLayout blockSize (blocksIn blockSize power)).blockSize = blockSize := by
      rw [isLayout]
    unfold pageBytes at full newPage
    rw [Nat.succ_mul] at full
    omega
  · intro memory header next prev a isWide isInit
    unfold baInit at isInit
    rw [if_neg (Nat.pos_iff_ne_zero.mp wide), if_neg (Nat.not_lt.mpr isWide),
      if_neg (Nat.pos_iff_ne_zero.mp nonempty)] at isInit
    dsimp only at isInit
    rw [isAligned] at isInit
    cases isInit
    exact ⟨rfl, offsetBelow⟩

theorem baAlignLayout_enlarges_hundred : ∃ aligned,
    baAlignLayout (baInitLayout 24 100) = aligned ∧
      100 ≤ aligned.blocks ∧ aligned.blockSize = 24 ∧
      (∃ power < 32, pageBytes 24 100 ≤ 2 ^ power ∧ 2 ^ power < 2 * pageBytes 24 100 ∧
        aligned.pageSize + mallocOverhead ≤ 2 ^ power ∧
        2 ^ power < aligned.pageSize + aligned.blockSize + mallocOverhead) ∧
      aligned.offset < 2 ^ Nat.log2 (roundUp32 (aligned.pageSize % 2 ^ 32)) ∧
      baAlignLayout aligned = aligned ∧
      ∀ memory header next prev a, blockHeaderSize ≤ 24 →
        baInit 24 100 memory header next prev = some a →
          a.l = aligned ∧ a.l.offset < 2 ^ a.magnitude :=
  baAlignLayout_enlarges (by decide) (by decide) ⟨12, by decide, by decide⟩

end MallocSurvey.Gjalloc
