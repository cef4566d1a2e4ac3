import Mathlib.Data.Nat.Bitwise
import Mathlib.Data.BitVec

/-! # Bit positions of machine words

The highest set bit, agreement of two words from a bit upwards, and the masks
that select the bits above a position or clear the low byte. -/

namespace MallocSurvey.Library

/-- Index of the highest set bit (`bsr`); zero for the zero word. -/
def bsr (word : BitVec width) : Nat := word.toNat.log2

theorem getLsbD_bsr {word : BitVec width} (nonzero : word ≠ 0) :
    word.getLsbD (bsr word) = true := by
  have toNatNonzero : word.toNat ≠ 0 := fun zero =>
    nonzero (BitVec.eq_of_toNat_eq zero)
  exact Nat.testBit_log2 toNatNonzero

theorem getLsbD_of_bsr_lt {word : BitVec width} {index : Nat}
    (above : bsr word < index) : word.getLsbD index = false := by
  by_cases zero : word.toNat = 0
  · simp [BitVec.getLsbD, zero]
  · exact Nat.testBit_lt_two_pow ((Nat.log2_lt zero).mp above)

theorem lt_width_of_getLsbD {word : BitVec width} {index : Nat}
    (set : word.getLsbD index = true) : index < width := by
  by_contra large
  rw [BitVec.getLsbD_of_ge word index (by omega)] at set
  contradiction

theorem le_bsr {word : BitVec width} {index : Nat}
    (set : word.getLsbD index = true) : index ≤ bsr word := by
  by_contra large
  rw [getLsbD_of_bsr_lt (by omega)] at set
  contradiction

/-! ## Agreement from a bit upwards -/

/-- The two words have the same bits from `bit` upwards. -/
def AgreeFrom (bit : Nat) (left right : BitVec width) : Prop :=
  ∀ index, bit ≤ index → left.getLsbD index = right.getLsbD index

namespace AgreeFrom

theorem refl (bit : Nat) (word : BitVec width) : AgreeFrom bit word word :=
  fun _ _ => rfl

theorem symm {left right : BitVec width} (agree : AgreeFrom bit left right) :
    AgreeFrom bit right left :=
  fun index above => (agree index above).symm

theorem trans {left middle right : BitVec width}
    (first : AgreeFrom bit left middle) (second : AgreeFrom bit middle right) :
    AgreeFrom bit left right :=
  fun index above => (first index above).trans (second index above)

theorem mono {left right : BitVec width} {bit higher : Nat}
    (agree : AgreeFrom bit left right) (le : bit ≤ higher) :
    AgreeFrom higher left right :=
  fun index above => agree index (le.trans above)

theorem of_width_le {left right : BitVec width} (le : width ≤ bit) :
    AgreeFrom bit left right := fun index above => by
  rw [BitVec.getLsbD_of_ge left index (by omega),
    BitVec.getLsbD_of_ge right index (by omega)]

theorem above_bsr_xor (left right : BitVec width) :
    AgreeFrom (bsr (left ^^^ right) + 1) left right := by
  intro index above
  have clear : (left ^^^ right).getLsbD index = false :=
    getLsbD_of_bsr_lt (by omega)
  rw [BitVec.getLsbD_xor] at clear
  exact bne_eq_false_iff_eq.mp clear

end AgreeFrom

theorem getLsbD_bsr_xor {left right : BitVec width}
    (different : left ^^^ right ≠ 0) :
    right.getLsbD (bsr (left ^^^ right)) =
      !left.getLsbD (bsr (left ^^^ right)) := by
  have set := getLsbD_bsr different
  rw [BitVec.getLsbD_xor] at set
  revert set
  cases left.getLsbD (bsr (left ^^^ right)) <;>
    cases right.getLsbD (bsr (left ^^^ right)) <;> simp

/-! ## Masks on 64-bit words -/

/-- `word & (~1 << bit)` keeps exactly the bits above `bit`. -/
theorem getLsbD_and_above (word : BitVec 64) (bit index : Nat) :
    (word &&& (~~~1#64) <<< bit).getLsbD index =
      (word.getLsbD index && decide (bit < index)) := by
  by_cases inRange : index < 64
  · rw [BitVec.getLsbD_and, BitVec.getLsbD_shiftLeft, BitVec.getLsbD_not,
      BitVec.getLsbD_one]
    cases word.getLsbD index with
    | false => simp
    | true =>
        simp only [Bool.true_and, inRange, decide_true]
        by_cases above : bit < index
        · simp [above, show ¬ index < bit by omega, show index - bit < 64 by omega,
            show index - bit ≠ 0 by omega]
        · by_cases equal : index = bit
          · simp [equal]
          · simp [above, show index < bit by omega]
  · simp [BitVec.getLsbD_of_ge _ index (by omega : 64 ≤ index)]

/-- `!((left ^ right) & (~1 << bit))` compares the bits above `bit`. -/
theorem xor_and_above_eq_zero_iff (left right : BitVec 64) (bit : Nat) :
    (left ^^^ right) &&& (~~~1#64) <<< bit = 0 ↔
      AgreeFrom (bit + 1) left right := by
  constructor
  · intro zero index above
    have clear : ((left ^^^ right) &&& (~~~1#64) <<< bit).getLsbD index = false := by
      rw [zero]
      exact BitVec.getLsbD_zero
    rw [getLsbD_and_above, decide_eq_true (by omega), Bool.and_true,
      BitVec.getLsbD_xor] at clear
    exact bne_eq_false_iff_eq.mp clear
  · intro agree
    apply BitVec.eq_of_getLsbD_eq
    intro index _
    rw [getLsbD_and_above, BitVec.getLsbD_xor]
    by_cases above : bit < index
    · simp [agree index (by omega)]
    · simp [above]

/-- `word & 0xFF`. -/
def lowByte (word : BitVec 64) : BitVec 64 := word &&& 0xFF#64

/-- `word & ~0xFF`. -/
def clearLowByte (word : BitVec 64) : BitVec 64 := word &&& ~~~0xFF#64

theorem getLsbD_byteMask (index : Nat) :
    (0xFF#64).getLsbD index = decide (index < 8) := by
  have mask : (0xFF#64).toNat = 2 ^ 8 - 1 := rfl
  rw [BitVec.getLsbD, mask, Nat.testBit_two_pow_sub_one]

theorem getLsbD_lowByte (word : BitVec 64) (index : Nat) :
    (lowByte word).getLsbD index =
      (word.getLsbD index && decide (index < 8)) := by
  rw [lowByte, BitVec.getLsbD_and, getLsbD_byteMask]

theorem getLsbD_clearLowByte (word : BitVec 64) (index : Nat) :
    (clearLowByte word).getLsbD index =
      (word.getLsbD index && decide (8 ≤ index)) := by
  by_cases inRange : index < 64
  · rw [clearLowByte, BitVec.getLsbD_and, BitVec.getLsbD_not, getLsbD_byteMask]
    by_cases small : index < 8
    · simp [small, show ¬ 8 ≤ index by omega]
    · simp [small, inRange, show 8 ≤ index by omega]
  · simp [BitVec.getLsbD_of_ge _ index (by omega : 64 ≤ index)]

theorem clearLowByte_agreeFrom (word : BitVec 64) (le : 8 ≤ bit) :
    AgreeFrom bit (clearLowByte word) word := by
  intro index above
  simp [getLsbD_clearLowByte, show 8 ≤ index by omega]

theorem clearLowByte_eq_of_agreeFrom {left right : BitVec 64}
    (agree : AgreeFrom 8 left right) : clearLowByte left = clearLowByte right := by
  apply BitVec.eq_of_getLsbD_eq
  intro index _
  rw [getLsbD_clearLowByte, getLsbD_clearLowByte]
  by_cases high : 8 ≤ index
  · rw [agree index high]
  · simp [high]

@[simp] theorem clearLowByte_clearLowByte (word : BitVec 64) :
    clearLowByte (clearLowByte word) = clearLowByte word :=
  clearLowByte_eq_of_agreeFrom (clearLowByte_agreeFrom word (Nat.le_refl 8))

theorem lowByte_eq_of_bits {left right : BitVec 64}
    (same : ∀ index, index < 8 → left.getLsbD index = right.getLsbD index) :
    lowByte left = lowByte right := by
  apply BitVec.eq_of_getLsbD_eq
  intro index _
  rw [getLsbD_lowByte, getLsbD_lowByte]
  by_cases small : index < 8
  · rw [same index small]
  · simp [small]

/-- Joining a cleared word with the low byte of another. -/
theorem lowByte_clear_or_low (high low : BitVec 64) :
    lowByte (clearLowByte high ||| lowByte low) = lowByte low := by
  apply lowByte_eq_of_bits
  intro index small
  simp [BitVec.getLsbD_or, getLsbD_clearLowByte, getLsbD_lowByte, small,
    show ¬ 8 ≤ index by omega]

theorem clear_or_low_agreeFrom (high low : BitVec 64) :
    AgreeFrom 8 (clearLowByte high ||| lowByte low) high := by
  intro index above
  simp [BitVec.getLsbD_or, getLsbD_clearLowByte, getLsbD_lowByte, above,
    show ¬ index < 8 by omega]

section

variable {word : BitVec 64} {index : Nat}

theorem or_ofNat_agreeFrom (word : BitVec 64) (small : index < 256) :
    AgreeFrom 8 (word ||| BitVec.ofNat 64 index) word := by
  intro position above
  have clear : (BitVec.ofNat 64 index).getLsbD position = false := by
    rw [BitVec.getLsbD_ofNat, Nat.testBit_lt_two_pow, Bool.and_false]
    exact lt_of_lt_of_le small (Nat.pow_le_pow_right (n := 2) (by omega) above)
  rw [BitVec.getLsbD_or, clear, Bool.or_false]

/-- A small index stored by `word |= index` in a word whose low byte is clear. -/
theorem lowByte_or_ofNat (aligned : lowByte word = 0) (small : index < 256) :
    (lowByte (word ||| BitVec.ofNat 64 index)).toNat = index := by
  have same : lowByte (word ||| BitVec.ofNat 64 index) = BitVec.ofNat 64 index := by
    rw [lowByte, BitVec.and_comm, BitVec.and_or_distrib_left,
      BitVec.and_comm 0xFF#64 word]
    change lowByte word ||| _ = _
    rw [aligned]
    refine (BitVec.zero_or).trans ?_
    apply BitVec.eq_of_toNat_eq
    rw [BitVec.toNat_and, Nat.and_comm]
    have mask : (0xFF#64).toNat = 2 ^ 8 - 1 := rfl
    rw [mask, Nat.and_two_pow_sub_one_eq_mod, BitVec.toNat_ofNat]
    omega
  rw [same, BitVec.toNat_ofNat]
  omega

theorem lowByte_clearLowByte (word : BitVec 64) :
    lowByte (clearLowByte word) = 0 := by
  apply BitVec.eq_of_getLsbD_eq
  intro index _
  rw [getLsbD_lowByte, getLsbD_clearLowByte]
  by_cases small : index < 8
  · simp [show ¬ 8 ≤ index by omega]
  · simp [small]

theorem clearLowByte_eq_self (aligned : lowByte word = 0) :
    clearLowByte word = word := by
  apply BitVec.eq_of_getLsbD_eq
  intro index _
  rw [getLsbD_clearLowByte]
  by_cases high : 8 ≤ index
  · simp [high]
  · have clear : (lowByte word).getLsbD index = false := by
      rw [aligned]
      exact BitVec.getLsbD_zero
    rw [getLsbD_lowByte, decide_eq_true (by omega), Bool.and_true] at clear
    simp [clear]

theorem getLsbD_of_lowByte_eq_zero (aligned : lowByte word = 0)
    (small : index < 8) : word.getLsbD index = false := by
  rw [← clearLowByte_eq_self aligned, getLsbD_clearLowByte]
  simp [show ¬ 8 ≤ index by omega]

/-- Aligned words agree from bit zero as soon as they agree from bit eight. -/
theorem eq_of_agreeFrom_of_aligned {left right : BitVec 64}
    (leftAligned : lowByte left = 0) (rightAligned : lowByte right = 0)
    (agree : AgreeFrom 8 left right) : left = right := by
  rw [← clearLowByte_eq_self leftAligned, ← clearLowByte_eq_self rightAligned]
  exact clearLowByte_eq_of_agreeFrom agree

end

/-! ## Smearing -/

/-- A bit is set when one of the `width` bits from it on is set in the word. -/
def Smeared (word width smeared : Nat) : Prop :=
  ∀ bit, smeared.testBit bit = true ↔ ∃ step < width, word.testBit (bit + step) = true

namespace Smeared

variable {word width smeared : Nat}

theorem one (word : Nat) : Smeared word 1 word := by
  intro bit
  constructor
  · exact fun set => ⟨0, Nat.one_pos, set⟩
  · rintro ⟨step, below, set⟩
    rw [Nat.lt_one_iff.mp below] at set
    exact set

/-- The width doubles with a shift by it. -/
theorem double (isSmeared : Smeared word width smeared) :
    Smeared word (2 * width) (smeared ||| smeared >>> width) := by
  intro bit
  rw [Nat.testBit_or, Nat.testBit_shiftRight, Bool.or_eq_true, isSmeared, isSmeared]
  constructor
  · rintro (⟨step, below, set⟩ | ⟨step, below, set⟩)
    · exact ⟨step, by omega, set⟩
    · refine ⟨width + step, by omega, ?_⟩
      rwa [← Nat.add_assoc, Nat.add_comm bit width]
  · rintro ⟨step, below, set⟩
    by_cases low : step < width
    · exact .inl ⟨step, low, set⟩
    · refine .inr ⟨step - width, by omega, ?_⟩
      have same : width + bit + (step - width) = bit + step := by omega
      rwa [same]

/-- All bits up to the highest one are set. -/
theorem eq_two_pow_sub_one (isSmeared : Smeared word width smeared) (nonzero : word ≠ 0)
    (fits : word < 2 ^ width) : smeared = 2 ^ (word.log2 + 1) - 1 := by
  apply Nat.eq_of_testBit_eq
  intro bit
  rw [Nat.testBit_two_pow_sub_one, Bool.eq_iff_iff, isSmeared, decide_eq_true_eq]
  have highest := (Nat.log2_lt nonzero).mpr fits
  constructor
  · rintro ⟨step, below, set⟩
    by_contra above
    have bound : word < 2 ^ (bit + step) :=
      Nat.lt_of_lt_of_le Nat.lt_log2_self (Nat.pow_le_pow_right (by decide) (by omega))
    rw [Nat.testBit_lt_two_pow bound] at set
    cases set
  · intro below
    refine ⟨word.log2 - bit, by omega, ?_⟩
    rw [Nat.add_sub_cancel' (by omega)]
    exact Nat.testBit_log2 nonzero

end Smeared
end MallocSurvey.Library
