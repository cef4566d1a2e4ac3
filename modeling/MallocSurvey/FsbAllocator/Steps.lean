import MallocSurvey.FsbAllocator.System

/-! # The steps of a block and of the index -/

namespace MallocSurvey.FsbAllocator

open Library

variable {elemSize : Nat} {memory : Words} {index carved : Nat} {memBlock : MemBlock}
  {live chain : List Nat} {state : State}

/-! ## One block -/

namespace Held

theorem firstFree_iff (held : Held elemSize memory index memBlock live chain carved) :
    memBlock.firstFreeUnitIndex = noUnit ↔ chain = [] := by
  cases chain with
  | nil => exact iff_of_true held.linked rfl
  | cons unit rest => exact iff_of_false held.linked.1 (List.cons_ne_nil _ _)

/-- Handing out the next unit. -/
theorem carve (held : Held elemSize memory index memBlock live [] carved)
    (room : carved < blockElements) :
    let unit := memBlock.block + carved * unitSizeInDSize elemSize
    ∃ next newMemory, memBlock.carve elemSize memory index = (unit, next, newMemory) ∧
      Held elemSize newMemory index next (unit :: live) [] (carved + 1) ∧
      next.block = memBlock.block ∧
      ∀ place, ¬ Holds elemSize memBlock place → newMemory place = memory place := by
  intro unit
  have positive := unit_pos elemSize
  have sized : unitSizeInDSize elemSize = elemSizeInDSize elemSize + 1 := rfl
  have isUnit : memBlock.block + memBlock.endIndex = unit := by rw [held.endIndex]
  have whole : run memBlock.block (carved + 1) (unitSizeInDSize elemSize) =
      run memBlock.block carved (unitSizeInDSize elemSize) ++ [unit] := by
    rw [run_add, run_succ, run_zero]
  have newMem : unit ∈ run memBlock.block (carved + 1) (unitSizeInDSize elemSize) := by
    simp [whole]
  have bounds := unit_bounds newMem (Nat.succ_le_of_lt room)
  refine ⟨{ memBlock with
      endIndex := memBlock.endIndex + unitSizeInDSize elemSize
      allocatedElementsAmount := memBlock.allocatedElementsAmount + 1 },
    Function.update memory (unit + elemSizeInDSize elemSize) index, ?_,
    ⟨held.nonzero, held.fits, held.linked, ?_, ?_, ?_, room, ?_⟩, rfl, ?_⟩
  · rw [MemBlock.carve, isUnit]
  · have units := held.units
    rw [List.nil_append] at units ⊢
    simp only
    rw [whole]
    exact (units.cons unit).trans (List.perm_append_singleton _ _).symm
  · simp only [List.length_cons]
    rw [held.amount]
  · simp only
    rw [held.endIndex, Nat.succ_mul]
  · intro other member
    simp only at member
    by_cases equal : other = unit
    · rw [equal]
      exact Function.update_self ..
    · have apart := units_apart member newMem equal
      have isOld : other ∈ run memBlock.block carved (unitSizeInDSize elemSize) := by
        rw [whole] at member
        simpa [equal] using member
      rw [Function.update_of_ne (by omega), held.index other isOld]
  · intro place outside
    apply Function.update_of_ne
    intro isPlace
    exact outside ⟨held.nonzero, by omega, by omega⟩

/-- Handing out the unit that was deallocated last. -/
theorem reuse {unit : Nat} {rest : List Nat}
    (held : Held elemSize memory index memBlock live (unit :: rest) carved) :
    ∃ next, memBlock.reuse memory = (unit, next, memory) ∧
      Held elemSize memory index next (unit :: live) rest carved ∧
      next.block = memBlock.block := by
  obtain ⟨_, isUnit, linked⟩ := held.linked
  refine ⟨{ memBlock with
      firstFreeUnitIndex := memory unit
      allocatedElementsAmount := memBlock.allocatedElementsAmount + 1 }, ?_,
    ⟨held.nonzero, held.fits, linked, ?_, ?_, held.endIndex, held.bound, held.index⟩, rfl⟩
  · rw [MemBlock.reuse, isUnit]
  · exact List.perm_middle.trans held.units
  · simp only [List.length_cons]
    rw [held.amount]

/-- A unit that comes back is the first free one. -/
theorem push (held : Held elemSize memory index memBlock live chain carved) {unit : Nat}
    (member : unit ∈ live) (word : 0 < elemSize) :
    Held elemSize (Function.update memory unit memBlock.firstFreeUnitIndex) index
      { memBlock with
        firstFreeUnitIndex := unit - memBlock.block
        allocatedElementsAmount := memBlock.allocatedElementsAmount - 1 }
      (live.erase unit) (unit :: chain) carved := by
  have isUnit := held.mem_units (.inr member)
  have bounds := unit_bounds isUnit held.bound
  have fits := held.fits
  have notFree : unit ∉ chain := by
    intro isFree
    exact (List.nodup_append.mp held.nodup).2.2 unit isFree unit member rfl
  refine ⟨held.nonzero, held.fits, ⟨?_, ?_, ?_⟩, ?_, ?_, held.endIndex, held.bound, ?_⟩
  · unfold noUnit
    simp only
    omega
  · simp only
    omega
  · rw [Function.update_self]
    apply held.linked.congr
    intro other isFree
    have different : other ≠ unit := fun equal => notFree (equal ▸ isFree)
    exact Function.update_of_ne different _ _
  · have moved : (unit :: chain ++ live.erase unit).Perm (chain ++ live) := by
      rw [List.cons_append]
      exact List.perm_middle.symm.trans
        (List.Perm.append_left chain (List.perm_cons_erase member).symm)
    exact moved.trans held.units
  · simp only
    rw [held.amount, List.length_erase_of_mem member]
  · intro other otherMem
    have positive : 0 < elemSizeInDSize elemSize := by
      unfold elemSizeInDSize dSize
      omega
    have sized : unitSizeInDSize elemSize = elemSizeInDSize elemSize + 1 := rfl
    rw [Function.update_of_ne, held.index other otherMem]
    by_cases equal : other = unit
    · omega
    · have apart := units_apart otherMem isUnit equal
      unfold Apart at apart
      omega

end Held

theorem BlockInv.amount (inv : BlockInv elemSize memory index memBlock live) :
    memBlock.allocatedElementsAmount = live.length := by
  rcases inv with vacant | ⟨_, chain, carved, held⟩
  · rw [vacant.amount, vacant.live]
    rfl
  · exact held.amount

/-- What `MemBlock::allocate` does if a unit is free. -/
theorem BlockInv.allocate (inv : BlockInv elemSize memory index memBlock live)
    (notFull : memBlock.isFull = false) {answer : Nat}
    (answers : answer = 0 ∨ answer + blockSize elemSize < 2 ^ 61) :
    ∃ retval next newMemory,
      memBlock.allocate elemSize memory index answer = (retval, next, newMemory) ∧
      (retval = 0 ∧ next = memBlock ∧ newMemory = memory ∧ memBlock.block = 0 ∨
        retval ≠ 0 ∧ BlockInv elemSize newMemory index next (retval :: live) ∧
          next.block ≠ 0 ∧ (next.block = memBlock.block ∨
            memBlock.block = 0 ∧ next.block = answer) ∧
          ∀ place, ¬ Holds elemSize next place → newMemory place = memory place) := by
  unfold MemBlock.allocate
  rcases inv with vacant | ⟨nonempty, chain, carved, held⟩
  · rw [if_pos vacant.firstFree, if_pos vacant.block]
    by_cases throws : answer = 0
    · rw [if_pos throws]
      exact ⟨0, memBlock, memory, rfl, .inl ⟨rfl, rfl, rfl, vacant.block⟩⟩
    · rw [if_neg throws]
      have fresh : Held elemSize memory index { memBlock with block := answer, endIndex := 0 }
          [] [] 0 := by
        refine ⟨throws, answers.resolve_left throws, vacant.firstFree, .refl _, vacant.amount, ?_,
          Nat.zero_le _, ?_⟩
        · rw [Nat.zero_mul]
        · intro unit member
          cases member
      obtain ⟨next, newMemory, result, newHeld, sameBlock, frame⟩ := fresh.carve (by decide)
      have isAnswer : next.block = answer := sameBlock
      rw [Nat.zero_mul, Nat.add_zero] at result newHeld
      refine ⟨answer, next, newMemory, result, .inr ⟨throws, ?_, ?_, .inr ⟨vacant.block, isAnswer⟩, ?_⟩⟩
      · rw [vacant.live]
        exact .inr ⟨List.cons_ne_nil _ _, [], 1, newHeld⟩
      · rw [isAnswer]
        exact throws
      · intro place outside
        apply frame
        unfold Holds at outside ⊢
        rw [isAnswer] at outside
        exact outside
  · cases isChain : chain with
    | nil =>
        rw [isChain] at held
        rw [if_pos (held.firstFree_iff.mpr rfl), if_neg held.nonzero]
        have length := held.length
        have amount := held.amount
        have room : carved < blockElements := by
          have bound := held.bound
          unfold MemBlock.isFull at notFull
          rw [decide_eq_false_iff_not] at notFull
          simp only [List.length_nil] at length
          omega
        obtain ⟨next, newMemory, result, newHeld, sameBlock, frame⟩ := held.carve room
        have nonzero := held.nonzero
        refine ⟨_, next, newMemory, result, .inr ⟨by omega, .inr ⟨List.cons_ne_nil _ _, [], carved + 1,
          newHeld⟩, sameBlock ▸ held.nonzero, .inl sameBlock, ?_⟩⟩
        intro place outside
        apply frame
        unfold Holds at outside ⊢
        rw [sameBlock] at outside
        exact outside
    | cons unit rest =>
        rw [isChain] at held
        rw [if_neg fun isNone => List.cons_ne_nil unit rest (held.firstFree_iff.mp isNone)]
        obtain ⟨next, result, newHeld, sameBlock⟩ := held.reuse
        have bounds := unit_bounds (held.mem_units (.inl List.mem_cons_self)) held.bound
        have nonzero := held.nonzero
        exact ⟨unit, next, memory, result, .inr ⟨by omega, .inr ⟨List.cons_ne_nil _ _, rest, carved,
          newHeld⟩, sameBlock ▸ held.nonzero, .inl sameBlock, fun _ _ => rfl⟩⟩

/-- What `MemBlock::deallocate` does to a live unit. -/
theorem BlockInv.deallocate (inv : BlockInv elemSize memory index memBlock live) {unit : Nat}
    (member : unit ∈ live) (word : 0 < elemSize) :
    ∃ next newMemory, memBlock.deallocate memory unit = (next, newMemory) ∧
      BlockInv elemSize newMemory index next (live.erase unit) ∧
      (next.block = memBlock.block ∨ next.block = 0) ∧ next.isFull = false ∧
      Holds elemSize memBlock unit ∧
      ∀ place, ¬ Holds elemSize memBlock place → newMemory place = memory place := by
  rcases inv with vacant | ⟨nonempty, chain, carved, held⟩
  · rw [vacant.live] at member
    cases member
  · have pushed := held.push member word
    have bounds := unit_bounds (held.mem_units (.inr member)) held.bound
    have positive := unit_pos elemSize
    have holds : Holds elemSize memBlock unit := ⟨held.nonzero, bounds.1, by omega⟩
    have amount := pushed.amount
    have smaller := held.length
    have bound := held.bound
    have shorter := List.length_erase_of_mem member
    have positiveLength := List.length_pos_of_mem member
    have notFull : ¬ memBlock.allocatedElementsAmount - 1 = blockElements := by
      rw [held.amount]
      unfold blockElements at *
      omega
    have frame : ∀ place, ¬ Holds elemSize memBlock place →
        Function.update memory unit memBlock.firstFreeUnitIndex place = memory place := by
      intro place outside
      have different : place ≠ unit := fun equal => outside (equal ▸ holds)
      exact Function.update_of_ne different _ _
    unfold MemBlock.deallocate
    dsimp only
    by_cases isLast : memBlock.allocatedElementsAmount - 1 = 0
    · rw [if_pos isLast]
      refine ⟨_, _, rfl, .inl ⟨rfl, rfl, isLast, ?_⟩, .inr rfl, ?_, holds, frame⟩
      · simp only at amount
        exact List.length_eq_zero_iff.mp (amount.symm.trans isLast)
      · unfold MemBlock.isFull MemBlock.clear
        simp only
        exact decide_eq_false notFull
    · rw [if_neg isLast]
      refine ⟨_, _, rfl, .inr ⟨?_, unit :: chain, carved, pushed⟩, .inl rfl, ?_, holds, frame⟩
      · intro isNil
        simp only [isNil, List.length_nil] at amount
        exact isLast amount
      · unfold MemBlock.isFull
        simp only
        exact decide_eq_false notFull

end MallocSurvey.FsbAllocator
