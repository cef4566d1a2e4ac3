import Mathlib.Data.Nat.Log
import Mathlib.Data.Nat.Bitwise
import Mathlib.Tactic.Ring

/-! # Classes that are linear first and logarithmic then

Sizes below `2 ^ (a + b)` are cut into `2 ^ b` classes of `2 ^ a` sizes each, and so is every
further doubling, into `2 ^ b` classes of equal width. A request is rounded up so that every
size of its class, and of the classes above, is enough for it. -/

namespace MallocSurvey.Library.LogLinear

variable (a b : Nat)

def level (size : Nat) : Nat :=
  if size < 2 ^ (a + b) then 0 else Nat.log2 size - (a + b) + 1

def part (size : Nat) : Nat :=
  if size < 2 ^ (a + b) then size / 2 ^ a else size / 2 ^ (Nat.log2 size - b) - 2 ^ b

/-- The place of a class among all classes. -/
def index (size : Nat) : Nat := level a b size * 2 ^ b + part a b size

/-- The least size of a class. -/
def start (fl sl : Nat) : Nat :=
  if fl = 0 then sl * 2 ^ a else (2 ^ b + sl) * 2 ^ (a + (fl - 1))

def roundUp (size : Nat) : Nat :=
  if 2 ^ b ≤ size then size + (2 ^ (Nat.log2 size - b) - 1) else size

variable {a b : Nat} {size other fl sl : Nat}

theorem log2_bounds (nonzero : size ≠ 0) :
    2 ^ Nat.log2 size ≤ size ∧ size < 2 ^ (Nat.log2 size + 1) :=
  ⟨Nat.log2_self_le nonzero, Nat.lt_log2_self⟩

theorem ne_zero_of_le (large : 2 ^ b ≤ size) : size ≠ 0 := by
  have positive : 0 < 2 ^ b := Nat.two_pow_pos b
  omega

theorem le_log2 (large : 2 ^ b ≤ size) : b ≤ Nat.log2 size :=
  (Nat.le_log2 (ne_zero_of_le large)).mpr large

/-- The highest bits of a size are those of its class. -/
theorem div_bounds (large : 2 ^ b ≤ size) :
    2 ^ b ≤ size / 2 ^ (Nat.log2 size - b) ∧ size / 2 ^ (Nat.log2 size - b) < 2 ^ b * 2 := by
  have high := le_log2 large
  obtain ⟨low, below⟩ := log2_bounds (ne_zero_of_le large)
  have positive : 0 < 2 ^ (Nat.log2 size - b) := Nat.two_pow_pos _
  constructor
  · rw [Nat.le_div_iff_mul_le positive, ← Nat.pow_add, Nat.add_sub_cancel' high]
    exact low
  · rw [Nat.div_lt_iff_lt_mul positive, Nat.mul_right_comm, ← Nat.pow_add,
      Nat.add_sub_cancel' high, ← Nat.pow_succ]
    exact below

theorem part_lt (size : Nat) : part a b size < 2 ^ b := by
  unfold part
  split
  · next small =>
      rw [Nat.div_lt_iff_lt_mul (Nat.two_pow_pos a), ← Nat.pow_add, Nat.add_comm]
      exact small
  · next large =>
      have smaller : 2 ^ b ≤ 2 ^ (a + b) := Nat.pow_le_pow_right (by decide) (by omega)
      have bounds := div_bounds (show 2 ^ b ≤ size by omega)
      omega

/-- Pairs in their order. -/
theorem le_iff_lex {width high low otherHigh otherLow : Nat} (lowLt : low < width)
    (otherLowLt : otherLow < width) :
    high * width + low ≤ otherHigh * width + otherLow ↔
      high < otherHigh ∨ high = otherHigh ∧ low ≤ otherLow := by
  rcases Nat.lt_trichotomy high otherHigh with less | same | more
  · have step : (high + 1) * width ≤ otherHigh * width := Nat.mul_le_mul_right width less
    rw [Nat.succ_mul] at step
    omega
  · subst same
    omega
  · have step : (otherHigh + 1) * width ≤ high * width := Nat.mul_le_mul_right width more
    rw [Nat.succ_mul] at step
    omega

/-- The sizes from the start of a class on are those of the class and of higher ones. -/
theorem le_index_iff (below : sl < 2 ^ b) :
    fl * 2 ^ b + sl ≤ index a b size ↔ start a b fl sl ≤ size := by
  unfold index
  rw [le_iff_lex below (part_lt size)]
  unfold level part start
  have width : 2 ^ b * 2 ^ a = 2 ^ (a + b) := by rw [← Nat.pow_add, Nat.add_comm]
  have positive : 0 < 2 ^ a := Nat.two_pow_pos a
  by_cases small : size < 2 ^ (a + b)
  · rw [if_pos small, if_pos small]
    by_cases first : fl = 0
    · subst first
      rw [if_pos rfl, Nat.le_div_iff_mul_le positive]
      omega
    · rw [if_neg first]
      have above : 2 ^ (a + b) ≤ (2 ^ b + sl) * 2 ^ (a + (fl - 1)) := by
        rw [← width]
        exact Nat.mul_le_mul (Nat.le_add_right _ _)
          (Nat.pow_le_pow_right (by decide) (Nat.le_add_right _ _))
      omega
  · rw [if_neg small, if_neg small]
    have lowest : 2 ^ b ≤ 2 ^ (a + b) := Nat.pow_le_pow_right (by decide) (by omega)
    have large : 2 ^ b ≤ size := by omega
    have nonzero := ne_zero_of_le large
    have high : a + b ≤ Nat.log2 size := (Nat.le_log2 nonzero).mpr (by omega)
    obtain ⟨low, top⟩ := log2_bounds nonzero
    have bounds := div_bounds large
    by_cases first : fl = 0
    · rw [if_pos first]
      have inFirst : sl * 2 ^ a ≤ 2 ^ (a + b) := by
        rw [← width]
        exact Nat.mul_le_mul_right _ (Nat.le_of_lt below)
      omega
    · rw [if_neg first]
      obtain ⟨fl, rfl⟩ := Nat.exists_eq_succ_of_ne_zero first
      rw [Nat.succ_sub_one]
      rcases Nat.lt_trichotomy fl (Nat.log2 size - (a + b)) with less | same | more
      · have ends : (2 ^ b + sl) * 2 ^ (a + fl) ≤ 2 ^ Nat.log2 size :=
          calc (2 ^ b + sl) * 2 ^ (a + fl)
              ≤ 2 ^ (b + 1) * 2 ^ (a + fl) :=
                Nat.mul_le_mul_right _ (by rw [Nat.pow_succ]; omega)
            _ = 2 ^ (b + 1 + (a + fl)) := (Nat.pow_add 2 _ _).symm
            _ ≤ 2 ^ Nat.log2 size := Nat.pow_le_pow_right (by decide) (by omega)
        exact iff_of_true (.inl (by omega)) (by omega)
      · have exponent : a + fl = Nat.log2 size - b := by omega
        rw [exponent, ← Nat.le_div_iff_mul_le (Nat.two_pow_pos _)]
        omega
      · have begins : 2 ^ (Nat.log2 size + 1) ≤ (2 ^ b + sl) * 2 ^ (a + fl) :=
          calc 2 ^ (Nat.log2 size + 1)
              ≤ 2 ^ (b + (a + fl)) := Nat.pow_le_pow_right (by decide) (by omega)
            _ = 2 ^ b * 2 ^ (a + fl) := Nat.pow_add 2 _ _
            _ ≤ (2 ^ b + sl) * 2 ^ (a + fl) := Nat.mul_le_mul_right _ (Nat.le_add_right _ _)
        exact iff_of_false (by omega) (by omega)

theorem start_le (size : Nat) : start a b (level a b size) (part a b size) ≤ size :=
  (le_index_iff (part_lt size)).mp (Nat.le_refl _)

/-- Larger sizes are not in lower classes. -/
theorem index_mono (le : size ≤ other) : index a b size ≤ index a b other :=
  (le_index_iff (part_lt size)).mpr ((start_le size).trans le)

theorem index_lex (size other : Nat) :
    index a b size ≤ index a b other ↔
      level a b size < level a b other ∨
        level a b size = level a b other ∧ part a b size ≤ part a b other :=
  le_iff_lex (part_lt size) (part_lt other)

/-- The level is below a count for the sizes below a power of two. -/
theorem level_lt_iff {count : Nat} :
    level a b size < count + 1 ↔ size < 2 ^ (a + b + count) := by
  have lower : 2 ^ (a + b) ≤ 2 ^ (a + b + count) :=
    Nat.pow_le_pow_right (by decide) (Nat.le_add_right _ _)
  unfold level
  split
  · omega
  · next large =>
      have nonzero := ne_zero_of_le (Nat.le_of_not_lt large)
      have high : a + b ≤ Nat.log2 size := (Nat.le_log2 nonzero).mpr (Nat.le_of_not_lt large)
      rw [← Nat.log2_lt nonzero]
      omega

/-! ## Rounding up -/

theorem start_of_large (large : 2 ^ (a + b) ≤ size) :
    start a b (level a b size) (part a b size) =
      size / 2 ^ (Nat.log2 size - b) * 2 ^ (Nat.log2 size - b) := by
  have lowest : 2 ^ b ≤ 2 ^ (a + b) := Nat.pow_le_pow_right (by decide) (by omega)
  have high := le_log2 large
  have bounds := div_bounds (lowest.trans large)
  have notSmall := Nat.not_lt_of_le large
  have exponent : a + (Nat.log2 size - (a + b)) = Nat.log2 size - b := by omega
  unfold level part start
  rw [if_neg notSmall, if_neg notSmall, if_neg (Nat.succ_ne_zero _), Nat.add_sub_cancel,
    Nat.add_sub_cancel' bounds.1, exponent]

theorem start_of_small (small : size < 2 ^ (a + b)) :
    start a b (level a b size) (part a b size) = size / 2 ^ a * 2 ^ a := by
  unfold level part start
  rw [if_pos small, if_pos small, if_pos rfl]

/-- The class of a rounded size starts at the size or above. -/
theorem le_start_roundUp (aligned : 2 ^ a ∣ size) :
    size ≤ start a b (level a b (roundUp b size)) (part a b (roundUp b size)) := by
  have lowest : 2 ^ b ≤ 2 ^ (a + b) := Nat.pow_le_pow_right (by decide) (by omega)
  unfold roundUp
  by_cases rounds : 2 ^ b ≤ size
  · rw [if_pos rounds]
    have nonzero := ne_zero_of_le rounds
    have high := le_log2 rounds
    obtain ⟨low, below⟩ := log2_bounds nonzero
    generalize isLog : Nat.log2 size = e at high low below
    have positive : 0 < 2 ^ (e - b) := Nat.two_pow_pos _
    by_cases small : size < 2 ^ (a + b)
    · -- in the linear part the rounding stays below the next multiple
      have lower : e < a + b := (Nat.pow_lt_pow_iff_right (by decide)).mp (low.trans_lt small)
      have less : 2 ^ (e - b) ≤ 2 ^ a := Nat.pow_le_pow_right (by decide) (by omega)
      obtain ⟨count, isMultiple⟩ := aligned
      have countLt : count < 2 ^ b := by
        have product : 2 ^ a * count < 2 ^ a * 2 ^ b := by
          rw [← Nat.pow_add, ← isMultiple]
          exact small
        exact Nat.lt_of_mul_lt_mul_left product
      have next : 2 ^ a * (count + 1) ≤ 2 ^ (a + b) := by
        rw [Nat.pow_add]
        exact Nat.mul_le_mul_left _ countLt
      rw [Nat.mul_succ, ← isMultiple] at next
      rw [start_of_small (by omega)]
      have quotient : count ≤ (size + (2 ^ (e - b) - 1)) / 2 ^ a := by
        rw [Nat.le_div_iff_mul_le (Nat.two_pow_pos a), Nat.mul_comm, ← isMultiple]
        omega
      calc size = count * 2 ^ a := by rw [isMultiple, Nat.mul_comm]
        _ ≤ _ := Nat.mul_le_mul_right _ quotient
    · have rounded : size ≤ size + (2 ^ (e - b) - 1) := Nat.le_add_right _ _
      have roundedLarge : 2 ^ (a + b) ≤ size + (2 ^ (e - b) - 1) := by omega
      rw [start_of_large roundedLarge]
      generalize isRounded : size + (2 ^ (e - b) - 1) = target at rounded roundedLarge
      have targetNonzero := ne_zero_of_le roundedLarge
      have up : e ≤ Nat.log2 target := by
        rw [← isLog]
        exact (Nat.le_log2 targetNonzero).mpr ((Nat.log2_self_le nonzero).trans rounded)
      rcases Nat.eq_or_lt_of_le up with same | more
      · -- the target stays in the power of two and is rounded up in it
        rw [← same]
        have divided := Nat.div_add_mod target (2 ^ (e - b))
        have remainder := Nat.mod_lt target positive
        rw [Nat.mul_comm] at divided
        omega
      · have bounds := div_bounds (lowest.trans roundedLarge)
        calc size ≤ 2 ^ (e + 1) := Nat.le_of_lt below
          _ ≤ 2 ^ Nat.log2 target := Nat.pow_le_pow_right (by decide) more
          _ = 2 ^ b * 2 ^ (Nat.log2 target - b) := by
              rw [← Nat.pow_add]
              congr 1
              omega
          _ ≤ _ := Nat.mul_le_mul_right _ bounds.1
  · rw [if_neg rounds, start_of_small (by omega), Nat.div_mul_cancel aligned]

/-- What is in the class of the rounded request or in a higher one is enough for it. -/
theorem le_of_index_roundUp_le (aligned : 2 ^ a ∣ size)
    (serves : index a b (roundUp b size) ≤ index a b other) : size ≤ other :=
  (le_start_roundUp aligned).trans ((le_index_iff (part_lt _)).mp serves)

/-- How many sizes the classes of a level have. -/
def width (a fl : Nat) : Nat := 2 ^ (a + (fl - 1))

/-- The sizes of a class. -/
theorem class_of_start {offset : Nat} (below : sl < 2 ^ b) (inside : offset < width a fl) :
    level a b (start a b fl sl + offset) = fl ∧ part a b (start a b fl sl + offset) = sl := by
  unfold width at inside
  unfold start
  by_cases first : fl = 0
  · subst first
    rw [if_pos rfl]
    simp only [Nat.zero_sub, Nat.add_zero] at inside
    have next : (sl + 1) * 2 ^ a ≤ 2 ^ (a + b) := by
      rw [Nat.pow_add, Nat.mul_comm]
      exact Nat.mul_le_mul_left _ below
    rw [Nat.succ_mul] at next
    have small : sl * 2 ^ a + offset < 2 ^ (a + b) := by omega
    unfold level part
    rw [if_pos small, if_pos small, Nat.mul_comm, Nat.mul_add_div (Nat.two_pow_pos a),
      Nat.div_eq_of_lt inside]
    exact ⟨rfl, rfl⟩
  · rw [if_neg first]
    obtain ⟨fl, rfl⟩ := Nat.exists_eq_succ_of_ne_zero first
    rw [Nat.succ_sub_one] at inside ⊢
    have low : 2 ^ (b + (a + fl)) ≤ (2 ^ b + sl) * 2 ^ (a + fl) + offset := by
      rw [Nat.pow_add, Nat.add_mul]
      omega
    have high : (2 ^ b + sl) * 2 ^ (a + fl) + offset < 2 ^ (b + (a + fl) + 1) :=
      calc (2 ^ b + sl) * 2 ^ (a + fl) + offset
          < (2 ^ b + sl + 1) * 2 ^ (a + fl) := by
            rw [Nat.succ_mul]
            omega
        _ ≤ 2 ^ (b + 1) * 2 ^ (a + fl) :=
            Nat.mul_le_mul_right _ (by rw [Nat.pow_succ]; omega)
        _ = 2 ^ (b + (a + fl) + 1) := by
            rw [← Nat.pow_add]
            congr 1
            omega
    have nonzero := ne_zero_of_le low
    have isLog : Nat.log2 ((2 ^ b + sl) * 2 ^ (a + fl) + offset) = b + (a + fl) :=
      (Nat.log2_eq_iff nonzero).mpr ⟨low, high⟩
    have large : ¬ (2 ^ b + sl) * 2 ^ (a + fl) + offset < 2 ^ (a + b) := by
      have lower : 2 ^ (a + b) ≤ 2 ^ (b + (a + fl)) :=
        Nat.pow_le_pow_right (by decide) (by omega)
      omega
    unfold level part
    rw [if_neg large, if_neg large, isLog, Nat.add_sub_cancel_left, Nat.mul_comm,
      Nat.mul_add_div (Nat.two_pow_pos _), Nat.div_eq_of_lt inside]
    omega

theorem roundUp_mono (le : size ≤ other) : roundUp b size ≤ roundUp b other := by
  unfold roundUp
  by_cases rounds : 2 ^ b ≤ size
  · rw [if_pos rounds, if_pos (rounds.trans le)]
    have nonzero := ne_zero_of_le rounds
    have log : Nat.log2 size ≤ Nat.log2 other :=
      (Nat.le_log2 (ne_zero_of_le (rounds.trans le))).mpr
        ((Nat.log2_self_le nonzero).trans le)
    have round : 2 ^ (Nat.log2 size - b) ≤ 2 ^ (Nat.log2 other - b) :=
      Nat.pow_le_pow_right (by decide) (Nat.sub_le_sub_right log b)
    omega
  · rw [if_neg rounds]
    split
    · omega
    · exact le

/-- Rounding the start of a class up stays in the class. -/
theorem roundUp_start (below : sl < 2 ^ b) :
    ∃ offset < width a fl, roundUp b (start a b fl sl) = start a b fl sl + offset := by
  have positive : 0 < width a fl := Nat.two_pow_pos _
  unfold roundUp
  split
  · next rounds =>
      have inside : 2 ^ (Nat.log2 (start a b fl sl) - b) ≤ width a fl := by
        have ends : start a b fl sl < 2 ^ (a + b + fl) := by
          rw [← level_lt_iff, ← Nat.add_zero (start a b fl sl),
            (class_of_start below positive).1]
          exact Nat.lt_succ_self fl
        have log := (Nat.log2_lt (ne_zero_of_le rounds)).mpr ends
        exact Nat.pow_le_pow_right (by decide) (by omega)
      exact ⟨_, Nat.lt_of_lt_of_le (Nat.sub_lt (Nat.two_pow_pos _) Nat.one_pos) inside, rfl⟩
  · exact ⟨0, positive, rfl⟩

/-- The class of a rounded request is the first one that starts at the request or above. -/
theorem index_roundUp_le (below : sl < 2 ^ b) (le : size ≤ start a b fl sl) :
    index a b (roundUp b size) ≤ fl * 2 ^ b + sl := by
  have rounded : ∃ offset < width a fl, roundUp b (start a b fl sl) = start a b fl sl + offset :=
    roundUp_start below
  obtain ⟨offset, inside, isRounded⟩ := rounded
  obtain ⟨isLevel, isPart⟩ := class_of_start below inside
  calc index a b (roundUp b size)
      ≤ index a b (roundUp b (start a b fl sl)) := index_mono (roundUp_mono le)
    _ = fl * 2 ^ b + sl := by rw [isRounded, index, isLevel, isPart]

/-- Where rounding up carries into the next power of two. -/
theorem roundUp_lt_iff {top : Nat} (high : b ≤ top) :
    roundUp b size < 2 ^ (top + 1) ↔ size ≤ 2 ^ (top + 1) - 2 ^ (top - b) := by
  have double : 2 ^ (top + 1) = 2 ^ top * 2 := Nat.pow_succ 2 top
  have fewer : 2 ^ (top - b) ≤ 2 ^ top := Nat.pow_le_pow_right (by decide) (Nat.sub_le _ _)
  have positive : 0 < 2 ^ (top - b) := Nat.two_pow_pos _
  unfold roundUp
  split
  · next rounds =>
      have nonzero := ne_zero_of_le rounds
      obtain ⟨low, below⟩ := log2_bounds nonzero
      generalize Nat.log2 size = e at low below
      rcases Nat.lt_trichotomy e top with less | same | more
      · have step : 2 ^ (e + 1) ≤ 2 ^ top := Nat.pow_le_pow_right (by decide) less
        have round : 2 ^ (e - b) ≤ 2 ^ top := Nat.pow_le_pow_right (by decide) (by omega)
        omega
      · subst same
        omega
      · have step : 2 ^ (top + 1) ≤ 2 ^ e := Nat.pow_le_pow_right (by decide) more
        omega
  · next small =>
      have lower : 2 ^ b ≤ 2 ^ top := Nat.pow_le_pow_right (by decide) high
      omega

end MallocSurvey.Library.LogLinear
