import MallocSurvey.FcMalloc.Heap
import MallocSurvey.Library.Bits
import MallocSurvey.Library.ByteMemory

/-! # The slots of a pool -/

namespace MallocSurvey.FcMalloc.FcHeap.Pool

open Library

variable {pool pool' : Pool} {width words left pos k j p : Nat} {state : Nat → BitVec 64}

/-- The number of slots. -/
def slots (width : Nat) : Nat := poolWords width * 64

/-- The bit of a slot: whether it is free. -/
def bit (pool : Pool) (k : Nat) : Bool := (pool.state (k / 64)).getLsbD (63 - k % 64)

/-- Where a slot is. -/
def slot (width : Nat) (pool : Pool) (k : Nat) : Nat := pool.data + k * width

theorem scan_spec (state : Nat → BitVec 64) (left : Nat) (inRange : pos < words) :
    (scan words state left pos).1 < words ∧
      ((scan words state left pos).2 = true → state (scan words state left pos).1 ≠ 0#64) ∧
      ((scan words state left pos).2 = false →
        ∀ i < left, state ((pos + i) % words) = 0#64) := by
  induction left generalizing pos with
  | zero => exact ⟨inRange, nofun, fun _ i below => absurd below (Nat.not_lt_zero i)⟩
  | succ left induction =>
      unfold scan
      by_cases isZero : state pos = 0#64
      · rw [if_pos isZero]
        have nextPos : (if pos + 1 = words then 0 else pos + 1) = (pos + 1) % words := by
          split
          · next isEnd => rw [isEnd, Nat.mod_self]
          · next inner => rw [Nat.mod_eq_of_lt (by omega)]
        have nextRange : (if pos + 1 = words then 0 else pos + 1) < words := by
          rw [nextPos]
          exact Nat.mod_lt _ (by omega)
        obtain ⟨stays, found, missed⟩ := induction nextRange
        refine ⟨stays, found, ?_⟩
        intro isMissed i below
        cases i with
        | zero => rwa [Nat.add_zero, Nat.mod_eq_of_lt inRange]
        | succ i =>
            have isClear := missed isMissed i (by omega)
            rw [nextPos, Nat.mod_add_mod] at isClear
            rwa [Nat.add_comm i 1, ← Nat.add_assoc]
      · rw [if_neg isZero]
        exact ⟨inRange, fun _ => isZero, nofun⟩

/-- After a whole round no word has a bit. -/
theorem scan_all (inRange : pos < words) (isMissed : (scan words state words pos).2 = false)
    (below : j < words) : state j = 0#64 := by
  have missed := (scan_spec state words inRange).2.2 isMissed
  by_cases ahead : pos ≤ j
  · have isClear := missed (j - pos) (by omega)
    rwa [Nat.add_sub_cancel' ahead, Nat.mod_eq_of_lt below] at isClear
  · have isClear := missed (words + j - pos) (by omega)
    rwa [Nat.add_sub_cancel' (by omega), Nat.add_mod_left, Nat.mod_eq_of_lt below] at isClear

theorem getLsbD_xor_mask (word : BitVec 64) (small : k < 64) (inWord : j < 64) :
    (word ^^^ mask k).getLsbD (63 - j) = (word.getLsbD (63 - j) ^^ decide (j = k)) := by
  unfold mask
  rw [BitVec.getLsbD_xor, BitVec.getLsbD_shiftLeft, BitVec.getLsbD_one]
  have inside : 63 - j < 64 := by omega
  by_cases same : j = k
  · subst same
    simp [inside]
  · have different : 63 - j < 63 - k ∨ 63 - j - (63 - k) ≠ 0 := by omega
    rcases different with below | above
    · simp [below, same]
    · simp [above, same]

/-- A bit of a word is flipped. -/
theorem bit_flip {word bitPos : Nat} (small : bitPos < 64)
    (isState : pool'.state = Function.update pool.state word
      (pool.state word ^^^ mask bitPos)) :
    pool'.bit j = (pool.bit j ^^ decide (j = word * 64 + bitPos)) := by
  unfold bit
  rw [isState]
  by_cases isWord : j / 64 = word
  · rw [isWord, Function.update_self, getLsbD_xor_mask _ small (Nat.mod_lt _ (by decide))]
    congr 1
    exact decide_eq_decide.mpr (by omega)
  · rw [Function.update_of_ne isWord]
    have different : j ≠ word * 64 + bitPos := by omega
    simp [different]

theorem alloc_none (inRange : pool.scanPos < poolWords width) {pool' : Pool}
    (isNone : pool.alloc width = (none, pool')) :
    (∀ k < slots width, pool.bit k = false) ∧ pool'.data = pool.data ∧
      pool'.state = pool.state ∧ pool'.scanPos < poolWords width := by
  unfold alloc at isNone
  obtain ⟨stays, _, _⟩ := scan_spec pool.state (poolWords width) inRange
  rcases isScan : scan (poolWords width) pool.state (poolWords width) pool.scanPos with ⟨pos, _ | _⟩
  · rw [isScan] at isNone stays
    cases isNone
    refine ⟨?_, rfl, rfl, stays⟩
    intro k below
    unfold slots at below
    unfold bit
    have isClear : pool.state (k / 64) = 0#64 :=
      scan_all inRange (by rw [isScan]) (by omega)
    rw [isClear]
    exact BitVec.getLsbD_zero
  · rw [isScan] at isNone
    cases isNone

theorem alloc_some (inRange : pool.scanPos < poolWords width) {pool' : Pool}
    (isSome : pool.alloc width = (some p, pool')) :
    ∃ k < slots width, p = pool.slot width k ∧ pool.bit k = true ∧
      (∀ j, pool'.bit j = (pool.bit j && decide (j ≠ k))) ∧ pool'.data = pool.data ∧
      pool'.scanPos < poolWords width := by
  unfold alloc at isSome
  obtain ⟨stays, isFound, _⟩ := scan_spec pool.state (poolWords width) inRange
  rcases isScan : scan (poolWords width) pool.state (poolWords width) pool.scanPos with ⟨pos, _ | _⟩
  · rw [isScan] at isSome
    cases isSome
  · rw [isScan] at isSome stays isFound
    cases isSome
    have nonzero := isFound rfl
    dsimp only at nonzero stays
    have top : (pool.state pos).getLsbD (bsr (pool.state pos)) = true :=
      getLsbD_bsr nonzero
    have small : bsr (pool.state pos) < 64 := lt_width_of_getLsbD top
    have isTop : 63 - lzero (pool.state pos) = bsr (pool.state pos) := by
      unfold lzero bsr at *
      omega
    have bound : lzero (pool.state pos) < 64 := by
      unfold lzero
      omega
    have isSet : pool.bit (pos * 64 + lzero (pool.state pos)) = true := by
      unfold bit
      have isWord : (pos * 64 + lzero (pool.state pos)) / 64 = pos := by omega
      have isBit : (pos * 64 + lzero (pool.state pos)) % 64 = lzero (pool.state pos) := by
        omega
      rw [isWord, isBit, isTop]
      exact top
    refine ⟨pos * 64 + lzero (pool.state pos), ?_, rfl, isSet, ?_, rfl, stays⟩
    · unfold slots
      omega
    · intro j
      rw [bit_flip bound rfl]
      by_cases same : j = pos * 64 + lzero (pool.state pos)
      · simp [same, isSet]
      · simp [same]

theorem free_slot (pool : Pool) (inside : k < slots width)
    (fits : slots width * width ≤ pageSizeMax)
    (positive : 0 < width) :
    ∃ pool', pool.free width (pool.slot width k) = some pool' ∧
      (∀ j, pool'.bit j = (pool.bit j ^^ decide (j = k))) ∧ pool'.data = pool.data ∧
      pool'.scanPos = pool.scanPos := by
  have bound : (k + 1) * width ≤ slots width * width := Nat.mul_le_mul_right width inside
  rw [Nat.succ_mul] at bound
  have within : pool.data ≤ pool.slot width k ∧
      pool.slot width k < pool.data + pageSizeMax := by
    unfold slot
    omega
  have isOffset : (pool.slot width k - pool.data) / width = k := by
    unfold slot
    rw [Nat.add_sub_cancel_left, Nat.mul_div_cancel k positive]
  unfold free
  rw [if_pos within]
  refine ⟨_, rfl, ?_, rfl, rfl⟩
  intro j
  have isPlace : k / 64 * 64 + k % 64 = k := Nat.div_add_mod' k 64
  rw [isOffset]
  refine (bit_flip (Nat.mod_lt k (by decide)) rfl).trans ?_
  rw [isPlace]

theorem free_outside (outside : ¬ (pool.data ≤ p ∧ p < pool.data + pageSizeMax)) :
    pool.free width p = none :=
  if_neg outside

/-! ## The slots in use -/

/-- The bits tell which slots are among the pointers in use. -/
structure Consistent (width : Nat) (pool : Pool) (ptrs : List Nat) : Prop where
  nonzero : pool.data ≠ 0
  scanned : pool.scanPos < poolWords width
  bits : ∀ k < slots width, pool.bit k = false ↔ pool.slot width k ∈ ptrs

theorem slot_inj (positive : 0 < width) (same : pool.slot width k = pool.slot width j) : k = j := by
  unfold slot at same
  exact Nat.eq_of_mul_eq_mul_right positive (Nat.add_left_cancel same)

theorem slot_inside (inside : k < slots width) :
    pool.data ≤ pool.slot width k ∧
      pool.slot width k + width ≤ pool.data + slots width * width := by
  have bound : (k + 1) * width ≤ slots width * width := Nat.mul_le_mul_right width inside
  rw [Nat.succ_mul] at bound
  unfold slot
  omega

/-- Different slots have no common byte. -/
theorem slot_apart (different : k ≠ j) :
    Apart (pool.slot width k) width (pool.slot width j) width := by
  unfold Apart slot
  rcases Nat.lt_or_gt_of_ne different with below | above
  · have bound : (k + 1) * width ≤ j * width := Nat.mul_le_mul_right width below
    rw [Nat.succ_mul] at bound
    omega
  · have bound : (j + 1) * width ≤ k * width := Nat.mul_le_mul_right width above
    rw [Nat.succ_mul] at bound
    omega

theorem slot_congr (same : pool'.data = pool.data) : pool'.slot width k = pool.slot width k := by
  unfold slot
  rw [same]

namespace Consistent

variable {ptrs : List Nat} (consistent : Consistent width pool ptrs)

include consistent

theorem missed {pool' : Pool} (isNone : pool.alloc width = (none, pool')) :
    Consistent width pool' ptrs ∧ pool'.data = pool.data ∧
      ∀ k < slots width, pool.slot width k ∈ ptrs := by
  obtain ⟨allClear, sameData, sameState, scanned⟩ := alloc_none consistent.scanned isNone
  refine ⟨⟨sameData ▸ consistent.nonzero, scanned, ?_⟩, sameData, ?_⟩
  · intro k inside
    rw [slot_congr sameData, ← consistent.bits k inside]
    unfold bit
    rw [sameState]
  · exact fun k inside => (consistent.bits k inside).mp (allClear k inside)

theorem took {pool' : Pool} (positive : 0 < width) (isSome : pool.alloc width = (some p, pool')) :
    Consistent width pool' (p :: ptrs) ∧ pool'.data = pool.data ∧ p ∉ ptrs ∧
      ∃ k < slots width, p = pool.slot width k := by
  obtain ⟨k, inside, isSlot, isFree, bits, sameData, scanned⟩ :=
    alloc_some consistent.scanned isSome
  refine ⟨⟨sameData ▸ consistent.nonzero, scanned, ?_⟩, sameData, ?_, k, inside, isSlot⟩
  · intro j jInside
    rw [slot_congr sameData, bits, isSlot, List.mem_cons]
    by_cases same : j = k
    · simp [same]
    · have different : pool.slot width j ≠ pool.slot width k := fun isSame =>
        same (slot_inj positive isSame)
      simp [same, different, consistent.bits j jInside]
  · rw [isSlot, ← consistent.bits k inside, isFree]
    exact Bool.noConfusion

theorem alloc_nonzero {pool' : Pool} (positive : 0 < width)
    (isSome : pool.alloc width = (some p, pool')) : p ≠ 0 := by
  obtain ⟨_, _, _, k, _, isSlot⟩ := consistent.took positive isSome
  have nonzero := consistent.nonzero
  rw [isSlot]
  unfold slot
  omega

theorem full_iff (positive : 0 < width) :
    (pool.alloc width).1.getD 0 = 0 ↔ ∀ k < slots width, pool.slot width k ∈ ptrs := by
  rcases isAlloc : pool.alloc width with ⟨_ | p, pool'⟩
  · exact iff_of_true rfl (consistent.missed isAlloc).2.2
  · obtain ⟨_, _, isNew, k, inside, isSlot⟩ := consistent.took positive isAlloc
    exact iff_of_false (consistent.alloc_nonzero positive isAlloc)
      fun full => isNew (isSlot ▸ full k inside)

/-- A pointer that is no slot is taken or given. -/
theorem congr {others : List Nat}
    (same : ∀ k < slots width, pool.slot width k ∈ others ↔ pool.slot width k ∈ ptrs) :
    Consistent width pool others :=
  { consistent with bits := fun k inside => (consistent.bits k inside).trans (same k inside).symm }

theorem gave (positive : 0 < width) (fits : slots width * width ≤ pageSizeMax)
    (nodup : ptrs.Nodup) (inside : k < slots width) (isLive : pool.slot width k ∈ ptrs) :
    ∃ pool', pool.free width (pool.slot width k) = some pool' ∧ pool'.data = pool.data ∧
      Consistent width pool' (ptrs.erase (pool.slot width k)) := by
  obtain ⟨pool', isFreed, bits, sameData, sameScan⟩ := free_slot pool inside fits positive
  refine ⟨pool', isFreed, sameData, sameData ▸ consistent.nonzero,
    sameScan ▸ consistent.scanned, ?_⟩
  intro j jInside
  rw [slot_congr sameData, bits, nodup.mem_erase_iff, ← consistent.bits j jInside]
  by_cases same : j = k
  · have isClear : pool.bit k = false := (consistent.bits k inside).mpr isLive
    simp [same, isClear]
  · have different : pool.slot width j ≠ pool.slot width k := fun isSame =>
      same (slot_inj positive isSame)
    simp [same, different]

end Consistent

end MallocSurvey.FcMalloc.FcHeap.Pool
