import Mathlib.Data.Nat.Bitwise
import Mathlib.Data.Nat.Log
import Mathlib.Tactic.Ring

/-! # Size classes of `tlsf1`

The first level of a class is the binary logarithm of the length, the second level
cuts it into 32 equal ranges. A shift by a negative amount or by the width of the
word is undefined and modelled as `none`. -/

namespace MallocSurvey.Tlsf1

/-- `TLSF_SLI_SHIFT` -/
def sliShift : Nat := 5

/-- `TLSF_MBS` -/
def mbs : Nat := 32

/-- Addition of `size_t` values. -/
def addWord (left right : Nat) : Nat := (left + right) % 2 ^ 64

/-- Subtraction of `size_t` values. -/
def subWord (left right : Nat) : Nat := (left + 2 ^ 64 - right) % 2 ^ 64

theorem addWord_of_lt {left right : Nat} (small : left + right < 2 ^ 64) :
    addWord left right = left + right :=
  Nat.mod_eq_of_lt small

theorem subWord_of_le {left right : Nat} (le : right ≤ left) (small : left < 2 ^ 64) :
    subWord left right = left - right := by
  unfold subWord
  omega

/-- `roundup2(x, TLSF_MBS)`; the sum is a `size_t`. -/
def roundup2 (x : Nat) : Nat := addWord x (mbs - 1) / mbs * mbs

def getMapping (size : Nat) : Option (Nat × Nat) :=
  if size = 0 ∨ Nat.log2 size < sliShift then none
  else
    let fli := Nat.log2 size
    some (fli, (size ^^^ (1 <<< fli)) >>> (fli - sliShift))

/-- The size that `tlsf_ext_alloc` looks for. -/
def roundedTarget (size : Nat) : Option Nat :=
  if size = 0 ∨ Nat.log2 size < sliShift then none
  else some (subWord (addWord size (1 <<< (Nat.log2 size - sliShift))) 1)

/-- The second class is as good for a request as the first one. -/
def Serves (wanted found : Nat × Nat) : Prop :=
  wanted.1 < found.1 ∨ wanted.1 = found.1 ∧ wanted.2 ≤ found.2

instance (wanted found : Nat × Nat) : Decidable (Serves wanted found) :=
  inferInstanceAs (Decidable (_ ∨ _))

theorem log2_bounds {size : Nat} (nonzero : size ≠ 0) :
    2 ^ Nat.log2 size ≤ size ∧ size < 2 ^ Nat.log2 size * 2 := by
  refine ⟨Nat.log2_self_le nonzero, ?_⟩
  rw [← Nat.pow_succ]
  exact Nat.lt_log2_self

/-- Clearing the leading bit. -/
theorem xor_leading {size : Nat} (nonzero : size ≠ 0) :
    size ^^^ (1 <<< Nat.log2 size) = size - 2 ^ Nat.log2 size := by
  obtain ⟨low, high⟩ := log2_bounds nonzero
  obtain ⟨rest, isSum⟩ := Nat.exists_eq_add_of_le low
  have small : rest < 2 ^ Nat.log2 size := by omega
  rw [Nat.shiftLeft_eq, Nat.one_mul]
  generalize Nat.log2 size = fli at isSum small
  have isOr : size = 2 ^ fli ||| rest := by
    rw [isSum]
    simpa only [Nat.mul_one] using Nat.two_pow_add_eq_or_of_lt small 1
  rw [show size - 2 ^ fli = rest by omega, isOr]
  apply Nat.eq_of_testBit_eq
  intro bit
  rw [Nat.testBit_xor, Nat.testBit_or, Nat.testBit_two_pow]
  by_cases same : fli = bit
  · subst same
    simp [Nat.testBit_lt_two_pow small]
  · simp [same]

theorem five_le_log2 {size : Nat} (large : mbs ≤ size) : 5 ≤ Nat.log2 size :=
  (Nat.le_log2 (by unfold mbs at large; omega)).mpr large

theorem getMapping_eq {size : Nat} (large : mbs ≤ size) :
    getMapping size = some (Nat.log2 size,
      (size - 2 ^ Nat.log2 size) / 2 ^ (Nat.log2 size - 5)) := by
  have nonzero : size ≠ 0 := by
    unfold mbs at large
    omega
  have level := five_le_log2 large
  rw [getMapping, if_neg (by unfold sliShift; omega)]
  simp only [xor_leading nonzero, Nat.shiftRight_eq_div_pow, sliShift]

/-- Both indexes are within the tables. -/
theorem getMapping_lt {size : Nat} {index : Nat × Nat} (mapped : getMapping size = some index)
    (small : size < 2 ^ 64) : index.1 < 64 ∧ index.2 < 32 := by
  unfold getMapping at mapped
  split at mapped
  · cases mapped
  · next valid =>
      rw [not_or, sliShift] at valid
      cases mapped
      obtain ⟨low, high⟩ := log2_bounds valid.1
      refine ⟨(Nat.log2_lt valid.1).mpr small, ?_⟩
      simp only
      rw [xor_leading valid.1, Nat.shiftRight_eq_div_pow, sliShift]
      apply Nat.div_lt_of_lt_mul
      have split : 2 ^ Nat.log2 size = 2 ^ (Nat.log2 size - 5) * 32 := by
        rw [show (32 : Nat) = 2 ^ 5 from rfl, ← Nat.pow_add]
        congr 1
        omega
      omega

/-- The least length of a class. -/
def classFloor (index : Nat × Nat) : Nat :=
  2 ^ index.1 + index.2 * 2 ^ (index.1 - 5)

theorem classFloor_le {size : Nat} {index : Nat × Nat} (large : mbs ≤ size)
    (mapped : getMapping size = some index) : classFloor index ≤ size := by
  rw [getMapping_eq large] at mapped
  cases mapped
  have low := (log2_bounds (show size ≠ 0 by unfold mbs at large; omega)).1
  have range := Nat.div_mul_le_self (size - 2 ^ Nat.log2 size) (2 ^ (Nat.log2 size - 5))
  simp only [classFloor]
  omega

/-- Every length of a class that serves another one is at least the floor of that. -/
theorem classFloor_le_of_serves {size : Nat} {wanted found : Nat × Nat} (large : mbs ≤ size)
    (mapped : getMapping size = some found) (wantedLt : wanted.2 < 32) (five : 5 ≤ wanted.1)
    (serves : Serves wanted found) : classFloor wanted ≤ size := by
  have floor := classFloor_le large mapped
  rcases serves with higher | ⟨same, above⟩
  · have step : 2 ^ (wanted.1 + 1) ≤ 2 ^ found.1 := Nat.pow_le_pow_right (by decide) higher
    have split : 2 ^ wanted.1 = 32 * 2 ^ (wanted.1 - 5) := by
      rw [show (32 : Nat) = 2 ^ 5 from rfl, ← Nat.pow_add]
      congr 1
      omega
    have below : wanted.2 * 2 ^ (wanted.1 - 5) ≤ 2 ^ wanted.1 := by
      rw [split]
      exact Nat.mul_le_mul_right _ (Nat.le_of_lt wantedLt)
    rw [Nat.pow_succ] at step
    unfold classFloor at *
    omega
  · have range := Nat.mul_le_mul_right (2 ^ (wanted.1 - 5)) above
    unfold classFloor at *
    rw [same] at range ⊢
    omega

/-- The class of the rounded target starts at the requested size or above. -/
theorem le_classFloor_target {size target : Nat} {wanted : Nat × Nat} (large : mbs ≤ size)
    (isTarget : target = size + 2 ^ (Nat.log2 size - 5) - 1)
    (mapped : getMapping target = some wanted) : size ≤ classFloor wanted := by
  have nonzero : size ≠ 0 := by
    unfold mbs at large
    omega
  obtain ⟨low, high⟩ := log2_bounds nonzero
  have level := five_le_log2 large
  have positive : 0 < 2 ^ (Nat.log2 size - 5) := Nat.two_pow_pos _
  have targetLarge : mbs ≤ target := by omega
  rw [getMapping_eq targetLarge] at mapped
  cases mapped
  have targetNonzero : target ≠ 0 := by omega
  obtain ⟨targetLow, targetHigh⟩ := log2_bounds targetNonzero
  generalize Nat.log2 target = targetLevel at *
  generalize isLevel : Nat.log2 size = sizeLevel at *
  have granule : 2 ^ sizeLevel = 32 * 2 ^ (sizeLevel - 5) := by
    rw [show (32 : Nat) = 2 ^ 5 from rfl, ← Nat.pow_add]
    congr 1
    omega
  simp only [classFloor]
  have levelLe : sizeLevel ≤ targetLevel := by
    by_contra lower
    have step : 2 ^ (targetLevel + 1) ≤ 2 ^ sizeLevel :=
      Nat.pow_le_pow_right (by decide) (by omega)
    rw [Nat.pow_succ] at step
    omega
  rcases Nat.eq_or_lt_of_le levelLe with same | higher
  · -- the target stays on the level and is rounded up to a range
    subst same
    have divided := Nat.div_add_mod (target - 2 ^ sizeLevel) (2 ^ (sizeLevel - 5))
    have remainder := Nat.mod_lt (target - 2 ^ sizeLevel) positive
    rw [Nat.mul_comm] at divided
    omega
  · have step : 2 ^ (sizeLevel + 1) ≤ 2 ^ targetLevel := Nat.pow_le_pow_right (by decide) higher
    rw [Nat.pow_succ] at step
    omega

/-- A block of a class that serves the rounded request holds the request. -/
theorem fits_of_serves {size target length : Nat} {wanted found : Nat × Nat}
    (large : mbs ≤ size) (isTarget : target = size + 2 ^ (Nat.log2 size - 5) - 1)
    (targetLt : target < 2 ^ 64) (wantedClass : getMapping target = some wanted)
    (lengthLarge : mbs ≤ length) (foundClass : getMapping length = some found)
    (serves : Serves wanted found) : size ≤ length := by
  have targetLarge : mbs ≤ target := by
    have positive : 0 < 2 ^ (Nat.log2 size - 5) := Nat.two_pow_pos _
    omega
  have five : 5 ≤ wanted.1 := by
    have level := five_le_log2 targetLarge
    have isClass := wantedClass
    rw [getMapping_eq targetLarge] at isClass
    cases isClass
    exact level
  exact (le_classFloor_target large isTarget wantedClass).trans
    (classFloor_le_of_serves lengthLarge foundClass (getMapping_lt wantedClass targetLt).2 five
      serves)

end MallocSurvey.Tlsf1
