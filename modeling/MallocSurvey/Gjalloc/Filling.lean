import MallocSurvey.Library.ByteMemory

/-! # `cmemset`

The copies of a pattern are doubled until less than half of them are missing. Copying
between overlapping ranges is a fault (`none`). -/

namespace MallocSurvey.Gjalloc

open Library

def memcpy (memory : Memory) (dst src count : Nat) : Option Memory :=
  if Library.Apart dst count src count then
    some fun place =>
      if dst ≤ place ∧ place < dst + count then memory (src + (place - dst)) else memory place
  else none

/-- The loop, with the bytes that are filled and that are missing. -/
def fillLoop (dst : Nat) : Nat → Memory → Nat → Nat → Option (Memory × Nat × Nat)
  | 0, _, _, _ => none
  | fuel + 1, memory, s, n =>
      if s ≤ n then do
        let memory ← memcpy memory (dst + s) dst s
        fillLoop dst fuel memory (s * 2 % 2 ^ 64) (n - s)
      else some (memory, s, n)

def cmemset (fuel : Nat) (memory : Memory) (dst src s n : Nat) : Option Memory := do
  let memory ← memcpy memory dst src s
  let missing := (n + 2 ^ 64 - 1) % 2 ^ 64 * s % 2 ^ 64
  let (memory, s, n) ← fillLoop dst fuel memory s missing
  if n ≠ 0 then memcpy memory (dst + s) dst n else return memory

/-! ## What is filled -/

/-- The bytes from `dst` on repeat the pattern, and nothing else has changed. -/
structure Filled (memory : Memory) (dst src s : Nat) (filled : Nat) (after : Memory) : Prop where
  inside : ∀ offset < filled, after (dst + offset) = memory (src + offset % s)
  outside : ∀ place, place < dst ∨ dst + filled ≤ place → after place = memory place

variable {memory middle after : Memory} {dst src s filled count fuel n : Nat}

theorem memcpy_eq (apart : Library.Apart dst count src count) :
    ∃ after, memcpy memory dst src count = some after ∧
      (∀ offset < count, after (dst + offset) = memory (src + offset)) ∧
      ∀ place, place < dst ∨ dst + count ≤ place → after place = memory place := by
  refine ⟨_, if_pos apart, ?_, ?_⟩
  · intro offset inside
    have within : dst ≤ dst + offset ∧ dst + offset < dst + count := ⟨by omega, by omega⟩
    rw [if_pos within, Nat.add_sub_cancel_left]
  · intro place beyond
    rw [if_neg (by omega)]

/-- Whole patterns are continued by their own beginning. -/
theorem Filled.copy (whole : Filled memory dst src s filled middle) (patterns : filled % s = 0)
    (atMost : count ≤ filled) :
    ∃ after, memcpy middle (dst + filled) dst count = some after ∧
      Filled memory dst src s (filled + count) after := by
  have apart : Library.Apart (dst + filled) count dst count := .inr (by omega)
  obtain ⟨after, result, inside, outside⟩ := @memcpy_eq middle _ _ _ apart
  refine ⟨after, result, ?_, ?_⟩
  · intro offset below
    by_cases old : offset < filled
    · rw [outside _ (.inl (by omega)), whole.inside offset old]
    · have new := inside (offset - filled) (by omega)
      have isPlace : dst + filled + (offset - filled) = dst + offset := by omega
      have samePhase : (offset - filled) % s = offset % s := by
        have isSum : offset = filled + (offset - filled) := by omega
        conv_rhs => rw [isSum, Nat.add_mod, patterns, Nat.zero_add, Nat.mod_mod]
      rw [isPlace] at new
      rw [new, whole.inside _ (by omega), samePhase]
  · intro place beyond
    rw [outside place (by omega), whole.outside place (by omega)]

/-- The loop ends with less missing than is filled. -/
theorem fillLoop_spec (total pattern : Nat) (positive : 0 < s)
    (whole : Filled memory dst src pattern s middle) (patterns : s % pattern = 0)
    (isTotal : s + n = total) (inRange : total < 2 ^ 64) (enough : n < fuel * pattern) :
    ∃ after filled missing, fillLoop dst fuel middle s n = some (after, filled, missing) ∧
      Filled memory dst src pattern filled after ∧ filled % pattern = 0 ∧
      filled + missing = total ∧ missing < filled := by
  induction fuel generalizing middle s n with
  | zero =>
      rw [Nat.zero_mul] at enough
      exact absurd enough (Nat.not_lt_zero n)
  | succ fuel induction =>
      rw [fillLoop]
      by_cases more : s ≤ n
      · obtain ⟨after, copied, doubled⟩ := whole.copy patterns (Nat.le_refl s)
        have isDouble : s * 2 % 2 ^ 64 = s + s := by omega
        have stillWhole : (s + s) % pattern = 0 := by
          rw [Nat.add_mod, patterns]
          exact Nat.zero_mod pattern
        have atLeast : pattern ≤ s := Nat.le_of_dvd positive (Nat.dvd_of_mod_eq_zero patterns)
        have fewer : n - s < fuel * pattern := by
          rw [Nat.succ_mul] at enough
          omega
        rw [if_pos more, copied, isDouble]
        exact induction (by omega) doubled stillWhole (by omega) fewer
      · rw [if_neg more]
        exact ⟨middle, s, n, rfl, whole, patterns, isTotal, by omega⟩

/-- `cmemset` fills the destination with copies of the pattern and changes nothing else;
its copies do not overlap and its loop ends. -/
theorem cmemset_fills (positive : 1 ≤ s) (nonempty : 1 ≤ n) (inRange : n * s < 2 ^ 64)
    (apart : Library.Apart dst (n * s) src s) (enough : n ≤ fuel) :
    ∃ after, cmemset fuel memory dst src s n = some after ∧
      (∀ i < n, ∀ k < s, after (dst + (i * s + k)) = memory (src + k)) ∧
      ∀ place, place < dst ∨ dst + n * s ≤ place → after place = memory place := by
  have oneMore : n * s = (n - 1) * s + s := by
    rw [← Nat.succ_mul, Nat.succ_eq_add_one, Nat.sub_add_cancel nonempty]
  have atMost : n ≤ n * s := Nat.le_mul_of_pos_right n positive
  have firstApart : Library.Apart dst s src s := by
    unfold Library.Apart at *
    omega
  obtain ⟨first, isFirst, inside, outside⟩ := @memcpy_eq memory _ _ _ firstApart
  have start : Filled memory dst src s s first := by
    refine ⟨?_, outside⟩
    intro offset below
    rw [inside offset below, Nat.mod_eq_of_lt below]
  have isMissing : (n + 2 ^ 64 - 1) % 2 ^ 64 * s % 2 ^ 64 = (n - 1) * s := by
    have isLess : (n + 2 ^ 64 - 1) % 2 ^ 64 = n - 1 := by omega
    rw [isLess, Nat.mod_eq_of_lt (by omega)]
  have fewer : (n - 1) * s < fuel * s :=
    Nat.mul_lt_mul_of_pos_right (by omega) positive
  obtain ⟨middle, filled, missing, loop, whole, patterns, isTotal, below⟩ :=
    fillLoop_spec (n * s) s positive start (Nat.mod_self s) (by omega) inRange fewer
  have result : ∃ after, cmemset fuel memory dst src s n = some after ∧
      Filled memory dst src s (n * s) after := by
    unfold cmemset
    rw [isFirst]
    dsimp only [Option.bind_eq_bind, Option.bind_some]
    rw [isMissing, loop]
    dsimp only [Option.bind_some]
    by_cases done : missing = 0
    · rw [if_neg (not_not.mpr done)]
      have isAll : filled = n * s := by omega
      exact ⟨middle, rfl, isAll ▸ whole⟩
    · rw [if_pos done]
      obtain ⟨after, copied, all⟩ := whole.copy patterns (Nat.le_of_lt below)
      exact ⟨after, copied, isTotal ▸ all⟩
  obtain ⟨after, isAfter, inPattern, beyond⟩ := result
  refine ⟨after, isAfter, ?_, beyond⟩
  intro i isCopy k inCopy
  have within : i * s + k < n * s := by
    have next : (i + 1) * s ≤ n * s := Nat.mul_le_mul_right s isCopy
    rw [Nat.succ_mul] at next
    omega
  rw [inPattern _ within, Nat.mul_add_mod_self_right, Nat.mod_eq_of_lt inCopy]

theorem cmemset_fills_three : ∃ after, cmemset 3 (fun place => UInt8.ofNat place) 100 4 8 3 =
      some after ∧
    (∀ i < 3, ∀ k < 8, after (100 + (i * 8 + k)) = UInt8.ofNat (4 + k)) ∧
      ∀ place, place < 100 ∨ 100 + 3 * 8 ≤ place → after place = UInt8.ofNat place :=
  cmemset_fills (by decide) (by decide) (by decide) (by decide) (by decide)

end MallocSurvey.Gjalloc
