import Mathlib.Algebra.Ring.Nat
import Mathlib.Data.List.Basic
import Mathlib.Logic.Function.Basic

/-! # Words in byte memory

Memory maps addresses to bytes. A word of `width` bytes is stored with its least
significant byte first, and nothing keeps the places of two words from
overlapping. -/

namespace MallocSurvey.Library

abbrev Memory := Nat → UInt8

/-- The word of `width` bytes at an address. -/
def loadBytes (memory : Memory) (address : Nat) : Nat → Nat
  | 0 => 0
  | width + 1 => (memory address).toNat + 256 * loadBytes memory (address + 1) width

def storeBytes (memory : Memory) (address width value : Nat) : Memory := fun place =>
  if address ≤ place ∧ place < address + width then
    UInt8.ofNat (value / 256 ^ (place - address))
  else memory place

/-- Two ranges of addresses without a common address. -/
def Apart (first firstLength second secondLength : Nat) : Prop :=
  first + firstLength ≤ second ∨ second + secondLength ≤ first

instance (first firstLength second secondLength : Nat) :
    Decidable (Apart first firstLength second secondLength) :=
  inferInstanceAs (Decidable (_ ∨ _))

theorem Apart.symm {first firstLength second secondLength : Nat}
    (apart : Apart first firstLength second secondLength) :
    Apart second secondLength first firstLength :=
  Or.symm apart

theorem loadBytes_congr {memory other : Memory} :
    ∀ {width address : Nat},
      (∀ place, address ≤ place → place < address + width →
        other place = memory place) →
      loadBytes other address width = loadBytes memory address width
  | 0, _, _ => rfl
  | width + 1, address, same => by
      rw [loadBytes, loadBytes, same address (Nat.le_refl _) (by omega),
        loadBytes_congr fun place above below => same place (by omega) (by omega)]

theorem storeBytes_outside {memory : Memory} {address width value place : Nat}
    (outside : place < address ∨ address + width ≤ place) :
    storeBytes memory address width value place = memory place := by
  rw [storeBytes, if_neg (by omega)]

theorem loadBytes_storeBytes_apart {memory : Memory}
    {address width value other otherWidth : Nat}
    (apart : Apart address width other otherWidth) :
    loadBytes (storeBytes memory address width value) other otherWidth =
      loadBytes memory other otherWidth := by
  apply loadBytes_congr
  intro place above below
  apply storeBytes_outside
  unfold Apart at apart
  omega

/-- The last store to a place counts. -/
theorem storeBytes_storeBytes {memory : Memory} {address width value last : Nat} :
    storeBytes (storeBytes memory address width value) address width last =
      storeBytes memory address width last := by
  funext place
  by_cases inside : address ≤ place ∧ place < address + width
  · simp only [storeBytes, if_pos inside]
  · simp only [storeBytes, if_neg inside]

/-- Writes to different places can be swapped. -/
theorem storeBytes_comm {memory : Memory} {address width value other otherWidth otherValue : Nat}
    (apart : Apart address width other otherWidth) :
    storeBytes (storeBytes memory address width value) other otherWidth otherValue =
      storeBytes (storeBytes memory other otherWidth otherValue) address width value := by
  unfold Apart at apart
  funext place
  by_cases inFirst : address ≤ place ∧ place < address + width
  · rw [storeBytes_outside (by omega)]
    simp only [storeBytes, inFirst, and_self, if_true]
  · conv_rhs => rw [storeBytes_outside (by omega)]
    by_cases inOther : other ≤ place ∧ place < other + otherWidth
    · simp only [storeBytes, inOther, and_self, if_true]
    · rw [storeBytes_outside (by omega), storeBytes_outside (by omega),
        storeBytes_outside (by omega)]

/-- Reading a stored word from its `done`-th byte on. -/
private theorem loadBytes_storeBytes_from (memory : Memory) (address value : Nat) :
    ∀ (width done : Nat),
      loadBytes (storeBytes memory address (done + width) value) (address + done) width =
        value / 256 ^ done % 256 ^ width
  | 0, done => by rw [loadBytes, Nat.pow_zero, Nat.mod_one]
  | width + 1, done => by
      have firstByte : storeBytes memory address (done + (width + 1)) value
          (address + done) = UInt8.ofNat (value / 256 ^ done) := by
        rw [storeBytes, if_pos (by omega), Nat.add_sub_cancel_left]
      have others := loadBytes_storeBytes_from memory address value width (done + 1)
      rw [show done + 1 + width = done + (width + 1) by omega,
        show address + (done + 1) = address + done + 1 by omega] at others
      have split : value / 256 ^ done % (256 * 256 ^ width) =
          value / 256 ^ done % 256 + 256 * (value / 256 ^ done / 256 % 256 ^ width) :=
        Nat.mod_mul
      rw [Nat.div_div_eq_div_mul, ← Nat.pow_succ, ← Nat.pow_succ'] at split
      rw [loadBytes, firstByte, others, UInt8.toNat_ofNat', split]

theorem loadBytes_storeBytes {memory : Memory} {address width value : Nat}
    (fits : value < 256 ^ width) :
    loadBytes (storeBytes memory address width value) address width = value := by
  have whole := loadBytes_storeBytes_from memory address value width 0
  rwa [Nat.zero_add, Nat.add_zero, Nat.pow_zero, Nat.div_one,
    Nat.mod_eq_of_lt fits] at whole

theorem loadBytes_lt (memory : Memory) :
    ∀ (width address : Nat), loadBytes memory address width < 256 ^ width
  | 0, _ => Nat.one_pos
  | width + 1, address => by
      have rest := loadBytes_lt memory width (address + 1)
      have first := (memory address).toNat_lt
      rw [loadBytes, Nat.pow_succ]
      omega

/-! ## Pointers -/

/-- `*(void**)address` -/
def loadPointer (memory : Memory) (address : Nat) : Nat := loadBytes memory address 8

/-- `*(void**)address = value` -/
def storePointer (memory : Memory) (address value : Nat) : Memory :=
  storeBytes memory address 8 value

theorem loadPointer_storePointer {memory : Memory} {address value : Nat}
    (fits : value < 2 ^ 64) :
    loadPointer (storePointer memory address value) address = value :=
  loadBytes_storeBytes fits

theorem loadPointer_storePointer_apart {memory : Memory} {address value other : Nat}
    (apart : Apart address 8 other 8) :
    loadPointer (storePointer memory address value) other = loadPointer memory other :=
  loadBytes_storeBytes_apart apart

theorem loadPointer_congr {memory other : Memory} {address : Nat}
    (same : ∀ place, address ≤ place → place < address + 8 → other place = memory place) :
    loadPointer other address = loadPointer memory address :=
  loadBytes_congr same

end MallocSurvey.Library
