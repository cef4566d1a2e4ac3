import Mathlib.Tactic.IntervalCases
import MallocSurvey.Library.LogLinear
import MallocSurvey.Ltalloc.SizeClass

/-! # Size classes and their sizes

`class_to_size` is the end of a class of `LogLinear`, so that it and `get_size_class`
determine each other. -/

namespace MallocSurvey.Ltalloc

open Library

/-! ## Classes as those of the library -/

section Classes

variable {size other last sizeClass : Nat}

theorem getSizeClass_index
    (isLast : ((size + 7) % 2 ^ 64 / 8 * 8 + (2 ^ 64 - 1)) % 2 ^ 64 = last) :
    getSizeClass size = LogLinear.index 0 2 last + 8 ∧ 7 ≤ last ∧ last % 8 = 7 := by
  obtain ⟨isClass, large⟩ := getSizeClass_eq isLast
  obtain ⟨highBit, low, high⟩ := @quarter_bounds last (by omega)
  have notSmall : ¬ last < 2 ^ (0 + 2) := by omega
  refine ⟨?_, large, by omega⟩
  rw [isClass]
  unfold LogLinear.index LogLinear.level LogLinear.part
  rw [if_neg notSmall, if_neg notSmall]
  omega

/-- The last byte of a request that is rounded up without an overflow. -/
theorem lastByte_eq (positive : 1 ≤ size) (inRange : size + 7 < 2 ^ 64) :
    ((size + 7) % 2 ^ 64 / 8 * 8 + (2 ^ 64 - 1)) % 2 ^ 64 = (size + 7) / 8 * 8 - 1 := by
  omega

theorem classToSize_start {level part : Nat} (below : part < 4) :
    classToSize (level * 4 + part + 11) = (4 + part) * 2 ^ level := by
  have rest : (level * 4 + part + 11 - 3) &&& 3 = part := by
    rw [show (3 : Nat) = 2 ^ 2 - 1 from rfl, Nat.and_two_pow_sub_one_eq_mod]
    omega
  have shift : (level * 4 + part + 11 - 3) >>> 2 - 2 = level := by
    rw [Nat.shiftRight_eq_div_pow]
    omega
  have joined : part ||| 4 = 4 + part := by
    have sum := Nat.two_pow_add_eq_or_of_lt (show part < 2 ^ 2 from below) 1
    rw [Nat.or_comm]
    exact sum.symm
  unfold classToSize
  dsimp only
  rw [rest, shift, joined, Nat.shiftLeft_eq]

/-- The sizes up to the one of a class are in it or in lower ones. -/
theorem lt_classToSize_iff (large : 11 ≤ sizeClass) :
    last < classToSize sizeClass ↔ LogLinear.index 0 2 last + 8 ≤ sizeClass := by
  obtain ⟨level, part, below, isClass⟩ : ∃ level part, part < 4 ∧
      sizeClass = level * 4 + part + 11 :=
    ⟨(sizeClass - 11) / 4, (sizeClass - 11) % 4, by omega, by omega⟩
  have isIndex : (level + 1) * 2 ^ 2 + part ≤ LogLinear.index 0 2 last ↔
      LogLinear.start 0 2 (level + 1) part ≤ last := LogLinear.le_index_iff below
  have isStart : LogLinear.start 0 2 (level + 1) part = (4 + part) * 2 ^ level := by
    unfold LogLinear.start
    rw [if_neg (Nat.succ_ne_zero level), Nat.add_sub_cancel, Nat.zero_add]
    rfl
  rw [isClass, classToSize_start below, ← isStart, ← Nat.not_le, ← isIndex]
  omega

/-- No size, or one that wraps when it is rounded up, is in the last class. -/
theorem getSizeClass_top (isTop : size = 0 ∨ 2 ^ 64 ≤ size + 7) (inRange : size < 2 ^ 64) :
    getSizeClass size = 259 := by
  have isLast : ((size + 7) % 2 ^ 64 / 8 * 8 + (2 ^ 64 - 1)) % 2 ^ 64 = 2 ^ 64 - 1 := by omega
  rw [(getSizeClass_eq isLast).1]
  decide

theorem getSizeClass_lt (inRange : size < 2 ^ 64) : getSizeClass size ≤ 259 := by
  obtain ⟨isClass, large⟩ := @getSizeClass_eq size _ rfl
  generalize isLast : ((size + 7) % 2 ^ 64 / 8 * 8 + (2 ^ 64 - 1)) % 2 ^ 64 = last at *
  obtain ⟨_, _, high⟩ := @quarter_bounds last (by omega)
  have bound : last.log2 < 64 := (Nat.log2_lt (by omega)).mpr (by omega)
  omega

/-! ## The sizes of the classes of requests -/

section Requests

variable (positive : 1 ≤ size) (inRange : size + 7 < 2 ^ 64)

include positive inRange

/-- The size of the class is one of four up to the next power of two. -/
theorem classToSize_getSizeClass :
    ∃ power quarter, 4 ≤ quarter ∧ quarter < 8 ∧
      getSizeClass size = 4 * (power + 2) + quarter ∧
      classToSize (getSizeClass size) = (quarter + 1) * 2 ^ power ∧
      quarter * 2 ^ power ≤ (size + 7) / 8 * 8 - 1 ∧
      (size + 7) / 8 * 8 - 1 < (quarter + 1) * 2 ^ power := by
  obtain ⟨isClass, large⟩ := getSizeClass_eq (lastByte_eq positive inRange)
  generalize (size + 7) / 8 * 8 - 1 = last at *
  obtain ⟨highBit, low, high⟩ := @quarter_bounds last (by omega)
  obtain ⟨power, isPower⟩ := Nat.exists_eq_add_of_le' highBit
  rw [isPower, Nat.add_sub_cancel] at isClass low high
  refine ⟨power, last / 2 ^ power, low, high, isClass, ?_, Nat.div_mul_le_self _ _, ?_⟩
  · generalize last / 2 ^ power = quarter at *
    by_cases isLast : quarter = 7
    · have isStart : getSizeClass size = (power + 1) * 4 + 0 + 11 := by omega
      have start := @classToSize_start (power + 1) 0 (by decide)
      rw [isStart, start, isLast, Nat.pow_succ]
      omega
    · have isStart : getSizeClass size = power * 4 + (quarter - 3) + 11 := by omega
      rw [isStart, classToSize_start (by omega)]
      congr 1
      omega
  · rw [Nat.add_mul, Nat.one_mul]
    exact Nat.lt_div_mul_add (Nat.two_pow_pos power)

theorem classToSize_mod : classToSize (getSizeClass size) % 8 = 0 := by
  obtain ⟨power, quarter, low, high, _, isSize, below, above⟩ :=
    classToSize_getSizeClass positive inRange
  have isMod : ((size + 7) / 8 * 8 - 1) % 8 = 7 := by omega
  generalize (size + 7) / 8 * 8 - 1 = last at *
  rw [isSize]
  rcases Nat.lt_or_ge power 3 with small | large
  · -- the classes up to 32 bytes
    interval_cases power
    · omega
    · omega
    · omega
  · obtain ⟨rest, isPower⟩ := Nat.exists_eq_add_of_le large
    rw [isPower, Nat.pow_add, ← Nat.mul_assoc, Nat.mul_right_comm]
    exact Nat.mul_mod_left _ _

/-- A size is at most that of a class if its own class is not higher. -/
theorem le_classToSize_iff {sizeClass : Nat} (large : 11 ≤ sizeClass)
    (aligned : classToSize sizeClass % 8 = 0) :
    size ≤ classToSize sizeClass ↔ getSizeClass size ≤ sizeClass := by
  obtain ⟨isIndex, _, _⟩ := getSizeClass_index (lastByte_eq positive inRange)
  rw [isIndex, ← lt_classToSize_iff large]
  omega

theorem large_class : 15 ≤ getSizeClass size := by
  obtain ⟨isIndex, large, _⟩ := getSizeClass_index (lastByte_eq positive inRange)
  have mono : LogLinear.index 0 2 7 ≤ LogLinear.index 0 2 ((size + 7) / 8 * 8 - 1) :=
    LogLinear.index_mono large
  have first : LogLinear.index 0 2 7 = 7 := by decide
  omega

theorem le_classToSize : size ≤ classToSize (getSizeClass size) :=
  (le_classToSize_iff positive inRange (Nat.le_trans (by decide) (large_class positive inRange))
    (classToSize_mod positive inRange)).mpr (Nat.le_refl _)

theorem getSizeClass_mono {other : Nat} (le : size ≤ other) (otherInRange : other < 2 ^ 64) :
    getSizeClass size ≤ getSizeClass other := by
  rcases Nat.lt_or_ge (other + 7) (2 ^ 64) with noWrap | wraps
  · obtain ⟨isIndex, _, _⟩ := getSizeClass_index (lastByte_eq positive inRange)
    obtain ⟨otherIndex, _, _⟩ := getSizeClass_index (lastByte_eq (positive.trans le) noWrap)
    rw [isIndex, otherIndex]
    exact Nat.add_le_add_right (LogLinear.index_mono (by omega)) 8
  · rw [getSizeClass_top (.inr wraps) otherInRange]
    exact getSizeClass_lt (by omega)

/-- The least class whose size is large enough. -/
theorem getSizeClass_le {other : Nat} (otherInRange : other < 2 ^ 64)
    (holds : size ≤ classToSize (getSizeClass other)) : getSizeClass size ≤ getSizeClass other := by
  by_cases isTop : other = 0 ∨ 2 ^ 64 ≤ other + 7
  · rw [getSizeClass_top isTop otherInRange]
    exact getSizeClass_lt (by omega)
  · have otherPositive : 1 ≤ other := by omega
    have noWrap : other + 7 < 2 ^ 64 := by omega
    have large := large_class otherPositive noWrap
    exact (le_classToSize_iff positive inRange (by omega)
      (classToSize_mod otherPositive noWrap)).mp holds

/-- The size of a class is in that class. -/
theorem getSizeClass_classToSize (noWrap : classToSize (getSizeClass size) + 7 < 2 ^ 64) :
    getSizeClass (classToSize (getSizeClass size)) = getSizeClass size := by
  have holds := le_classToSize positive inRange
  have large := large_class positive inRange
  have atMost := (le_classToSize_iff (positive.trans holds) noWrap (by omega)
    (classToSize_mod positive inRange)).mp (Nat.le_refl _)
  exact Nat.le_antisymm atMost (getSizeClass_mono positive inRange holds (by omega))

/-- Less than a quarter of a size above 32 bytes is wasted. -/
theorem waste_lt (large : 32 < size) : 4 * (classToSize (getSizeClass size) - size) < size := by
  obtain ⟨power, quarter, low, high, _, isSize, below, above⟩ :=
    classToSize_getSizeClass positive inRange
  rw [isSize]
  have isMod : ((size + 7) / 8 * 8 - 1) % 8 = 7 := by omega
  rcases Nat.lt_or_ge power 3 with small | large
  · interval_cases power
    · omega
    · omega
    · omega
  · obtain ⟨rest, isPower⟩ := Nat.exists_eq_add_of_le large
    have isEight : 2 ^ power = 8 * 2 ^ rest := by rw [isPower, Nat.pow_add]
    have lowBound : 4 * 2 ^ power ≤ quarter * 2 ^ power := Nat.mul_le_mul_right _ low
    -- the quarter that the size ends in starts below it
    have isStart : quarter * 2 ^ power = 8 * (quarter * 2 ^ rest) := by
      rw [isEight, Nat.mul_left_comm]
    rw [Nat.add_mul, Nat.one_mul]
    omega

omit inRange in
theorem classToSize_le (small : size ≤ 2 ^ 31) : classToSize (getSizeClass size) ≤ 2 ^ 31 := by
  have large := large_class positive (by omega)
  have atMost := getSizeClass_mono positive (by omega) small (by decide)
  have isLast : getSizeClass (2 ^ 31) = 127 := by decide
  have beyond : LogLinear.index 0 2 (2 ^ 31) = 120 := by decide
  by_contra tooLarge
  have below := (lt_classToSize_iff (show 11 ≤ getSizeClass size by omega)).mp
    (Nat.lt_of_not_le tooLarge)
  omega

end Requests

end Classes

/-! ## The table -/

/-- `small_size_classes` of a 64-bit build -/
def smallSizeClasses : List Nat := [
  131, 15, 19, 21, 23, 24, 25, 26, 27, 28, 28, 29, 29, 30, 30, 31, 31, 32, 32, 32, 32, 33, 33,
  33, 33, 34, 34, 34, 34, 35, 35, 35, 35, 36, 36, 36, 36, 36, 36, 36, 36, 37, 37, 37, 37, 37, 37,
  37, 37, 38, 38, 38, 38, 38, 38, 38, 38, 39, 39, 39, 39, 39, 39, 39, 39, 40, 40, 40, 40, 40, 40,
  40, 40, 40, 40, 40, 40, 40, 40, 40, 40, 41, 41, 41, 41, 41, 41, 41, 41, 41, 41, 41, 41, 41, 41,
  41, 41, 42, 42, 42, 42, 42, 42, 42, 42, 42, 42, 42, 42, 42, 42, 42, 42, 43, 43, 43, 43, 43, 43,
  43, 43, 43, 43, 43, 43, 43, 43, 43, 43, 44, 44, 44, 44, 44, 44, 44, 44, 44, 44, 44, 44, 44, 44,
  44, 44, 44, 44, 44, 44, 44, 44, 44, 44, 44, 44, 44, 44, 44, 44, 44, 44, 45, 45, 45, 45, 45, 45,
  45, 45, 45, 45, 45, 45, 45, 45, 45, 45, 45, 45, 45, 45, 45, 45, 45, 45, 45, 45, 45, 45, 45, 45,
  45, 45, 46, 46, 46, 46, 46, 46, 46, 46, 46, 46, 46, 46, 46, 46, 46, 46, 46, 46, 46, 46, 46, 46,
  46, 46, 46, 46, 46, 46, 46, 46, 46, 46, 47, 47, 47, 47, 47, 47, 47, 47, 47, 47, 47, 47, 47, 47,
  47, 47, 47, 47, 47, 47, 47, 47, 47, 47, 47, 47, 47, 47, 47, 47, 47]

/-- The compilers that the source has a `BSR` for. -/
inductive Compiler
  | gcc
  | msc

/-- `get_size_class`. The Microsoft compiler gets a table for the small sizes. -/
def Compiler.getSizeClass (compiler : Compiler) (size : Nat) : Nat :=
  match compiler with
  | .gcc => Ltalloc.getSizeClass size
  | .msc =>
      if size < 256 * 8 - (8 - 1) then smallSizeClasses.getD ((size + (8 - 1)) / 8) 0
      else Ltalloc.getSizeClass size

theorem smallSizeClasses_eq :
    ∀ units < 256, units ≠ 0 → smallSizeClasses.getD units 0 = getSizeClass (units * 8) := by
  decide +kernel

namespace Compiler

variable (compiler : Compiler) {size : Nat}

theorem getSizeClass_eq (positive : 1 ≤ size) :
    compiler.getSizeClass size = Ltalloc.getSizeClass size := by
  cases compiler with
  | gcc => rfl
  | msc =>
      unfold getSizeClass
      dsimp only
      split
      · next small =>
          rw [smallSizeClasses_eq _ (by omega) (by omega)]
          unfold Ltalloc.getSizeClass
          rw [show ((size + (8 - 1)) / 8 * 8 + 7) % 2 ^ 64 / 8 * 8 = (size + 7) % 2 ^ 64 / 8 * 8
            by omega]
      · rfl

theorem getSizeClass_zero : 127 ≤ compiler.getSizeClass 0 ∧
    compiler.getSizeClass 0 < numberOfSizeClasses := by
  cases compiler <;> decide

/-- `get_size_class` and `class_to_size` are adjoint on the sizes up to `2 ^ 31`. -/
theorem size_classes_adjoint (compiler : Compiler) :
    (∀ size < 2 ^ 64, compiler.getSizeClass size < numberOfSizeClasses) ∧
      ∀ size, 1 ≤ size → size ≤ 2 ^ 31 →
        size ≤ classToSize (compiler.getSizeClass size) ∧
        classToSize (compiler.getSizeClass size) < 2 ^ 32 ∧
        (∀ other < 2 ^ 64, size ≤ classToSize (compiler.getSizeClass other) →
          compiler.getSizeClass size ≤ compiler.getSizeClass other) ∧
        (∀ other < 2 ^ 64, size ≤ other →
          compiler.getSizeClass size ≤ compiler.getSizeClass other) ∧
        compiler.getSizeClass (classToSize (compiler.getSizeClass size)) =
          compiler.getSizeClass size ∧
        (32 < size → 4 * (classToSize (compiler.getSizeClass size) - size) < size) := by
  constructor
  · intro size inRange
    rcases Nat.eq_zero_or_pos size with isZero | positive
    · rw [isZero]
      exact compiler.getSizeClass_zero.2
    · rw [compiler.getSizeClass_eq positive]
      exact Nat.lt_of_le_of_lt (getSizeClass_lt inRange) (by decide)
  · intro size positive small
    have inRange : size + 7 < 2 ^ 64 := by omega
    have holds := le_classToSize positive inRange
    have bound := classToSize_le positive small
    rw [compiler.getSizeClass_eq positive, compiler.getSizeClass_eq (positive.trans holds)]
    refine ⟨holds, by omega, ?_, ?_, getSizeClass_classToSize positive inRange (by omega),
      waste_lt positive inRange⟩
    · intro other otherInRange otherHolds
      rcases Nat.eq_zero_or_pos other with isZero | otherPositive
      · have atMost := getSizeClass_mono positive inRange small (by decide)
        have isLast : Ltalloc.getSizeClass (2 ^ 31) = 127 := by decide
        rw [isZero]
        exact atMost.trans (isLast ▸ compiler.getSizeClass_zero.1)
      · rw [compiler.getSizeClass_eq otherPositive] at otherHolds ⊢
        exact getSizeClass_le positive inRange otherInRange otherHolds
    · intro other otherInRange le
      rw [compiler.getSizeClass_eq (positive.trans le)]
      exact getSizeClass_mono positive inRange le otherInRange

theorem size_classes_adjoint_hundred : Compiler.msc.getSizeClass 100 = 30 ∧
    classToSize (Compiler.msc.getSizeClass 100) = 112 ∧
    100 ≤ classToSize (Compiler.msc.getSizeClass 100) :=
  ⟨by decide, by decide, ((size_classes_adjoint .msc).2 100 (by decide) (by decide)).1⟩

end Compiler

end MallocSurvey.Ltalloc
