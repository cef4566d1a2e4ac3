import MallocSurvey.FsbAllocator2.System

/-! # The calls of the second version -/

namespace MallocSurvey.FsbAllocator2

open Library FsbAllocator

variable {elemSize : Nat} {allocator : ElemAllocator2} {live chain front : List Nat}
  {back carved : Nat} {state : State}

theorem allUnits_snoc (front : List Nat) (back : Nat) :
    carvedUnits elemSize front back blockElements =
      (front ++ [back]).flatMap (unitsOf elemSize) := by
  rw [carvedUnits, List.flatMap_append, List.flatMap_singleton, unitsOf]

namespace Rep

/-- Only the links of the free units matter. -/
theorem congr (rep : Rep elemSize allocator live chain front back carved) {memory : Words}
    (same : ∀ unit ∈ chain, memory unit = allocator.memory unit) :
    Rep elemSize { allocator with memory := memory } live chain front back carved :=
  { rep with linked := rep.linked.congr same }

/-- The amount does not matter. -/
theorem recount (rep : Rep elemSize allocator live chain front back carved) (amount : Nat) :
    Rep elemSize { allocator with allocatedElementsAmount := amount } live chain front back
      carved :=
  { rep with }

/-- Taking the first free unit. -/
theorem pop {unit : Nat} {rest : List Nat}
    (rep : Rep elemSize allocator live (unit :: rest) front back carved) :
    Rep elemSize { allocator with freeList := allocator.memory allocator.freeList }
      (allocator.freeList :: live) rest front back carved := by
  have isFirst : allocator.freeList = unit := rep.freeList
  rw [isFirst]
  exact { rep with
    freeList := rep.linked.2.1
    linked := rep.linked.2.2
    units := List.perm_middle.trans rep.units }

/-- Taking the next unit of the last block. -/
theorem advance (rep : Rep elemSize allocator live chain front back carved)
    (room : carved < blockElements) :
    Rep elemSize { allocator with
        headIndex := allocator.headIndex + elemSizeInDSize elemSize }
      ((back + allocator.headIndex) :: live) chain front back (carved + 1) := by
  refine { rep with headIndex := ?_, bound := room, units := ?_ }
  · simp only
    rw [rep.headIndex, Nat.succ_mul]
  · rw [rep.headIndex, carvedUnits, run_add, run_succ, run_zero, ← List.append_assoc]
    exact List.perm_middle.trans ((rep.units.cons _).trans
      (List.perm_append_singleton _ _).symm)

/-- Taking the first unit of a new block. -/
theorem grow (rep : Rep elemSize allocator live chain front back carved)
    (whole : carved = blockElements) {answer : Nat} (nonzero : answer ≠ 0)
    (fits : answer + blockSize elemSize < 2 ^ 61)
    (fresh : ∀ block ∈ allocator.ptrs,
      Apart block (blockSize elemSize) answer (blockSize elemSize)) :
    Rep elemSize { allocator with
        ptrs := allocator.ptrs ++ [answer], headIndex := elemSizeInDSize elemSize }
      (answer :: live) chain allocator.ptrs answer 1 := by
  refine { rep with ptrs := rfl, blocks := ⟨?_, ?_, ?_⟩, headIndex := ?_, bound := by decide,
                    units := ?_ }
  · intro block member
    rcases List.mem_append.mp member with isOld | isNew
    · exact rep.blocks.nonzero block isOld
    · rw [List.mem_singleton.mp isNew]
      exact nonzero
  · intro block member
    rcases List.mem_append.mp member with isOld | isNew
    · exact rep.blocks.fits block isOld
    · rw [List.mem_singleton.mp isNew]
      exact fits
  · rw [List.pairwise_append]
    refine ⟨rep.blocks.apart, List.pairwise_singleton _ _, ?_⟩
    intro block isOld other isNew
    rw [List.mem_singleton.mp isNew]
    exact fresh block isOld
  · simp
  · have units := rep.units
    rw [whole, allUnits_snoc, ← rep.ptrs] at units
    rw [carvedUnits, run_succ, run_zero]
    exact List.perm_middle.trans ((units.cons _).trans (List.perm_append_singleton _ _).symm)

/-- Linking a live unit in front. -/
theorem push (rep : Rep elemSize allocator live chain front back carved)
    (word : 0 < elemSize) {unit : Nat} (member : unit ∈ live) :
    Rep elemSize { allocator with
        memory := Function.update allocator.memory unit allocator.freeList, freeList := unit }
      (live.erase unit) (unit :: chain) front back carved := by
  have small := rep.blocks.unit_small (rep.mem_units (.inr member))
  refine { rep with freeList := rfl, linked := ⟨small.1, ?_, ?_⟩, units := ?_ }
  · simp only
    exact (Function.update_self ..).trans rep.freeList
  · apply rep.linked.congr
    intro other isFree
    apply Function.update_of_ne
    intro same
    have same : other = unit := same
    exact rep.disjoint word isFree (same ▸ member)
  · rw [List.cons_append]
    exact (List.perm_middle.symm.trans
      (List.Perm.append_left chain (List.perm_cons_erase member).symm)).trans rep.units

/-- All blocks but the first are deleted. -/
theorem reset (rep : Rep elemSize allocator live chain front back carved) (memory : Words)
    (amount : Nat) : ∃ first, Rep elemSize
      { allocator with
        ptrs := allocator.ptrs.take 1, headIndex := 0, freeList := 0, memory := memory
        allocatedElementsAmount := amount } [] [] [] first 0 := by
  obtain ⟨first, rest, isPtrs⟩ := List.exists_cons_of_ne_nil (l := allocator.ptrs) (by
    rw [rep.ptrs]
    simp)
  have only : allocator.ptrs.take 1 = [first] := by rw [isPtrs]; rfl
  have isMember : first ∈ allocator.ptrs := isPtrs ▸ List.mem_cons_self
  refine ⟨first, only, ⟨?_, ?_, ?_⟩, ?_, Nat.zero_le _, rfl, trivial, .refl _⟩
  · intro block member
    rw [only, List.mem_singleton] at member
    exact member ▸ rep.blocks.nonzero first isMember
  · intro block member
    rw [only, List.mem_singleton] at member
    exact member ▸ rep.blocks.fits first isMember
  · simp only
    rw [only]
    exact List.pairwise_singleton _ _
  · exact (Nat.zero_mul _).symm

end Rep

/-! ## The invariant -/

theorem inv_allocate (inv : Inv elemSize state) (word : 0 < elemSize) {answer : Nat}
    (enabled : Enabled elemSize state (.allocate answer)) :
    ∃ next, step elemSize state (.allocate answer) = some next ∧ Inv elemSize next := by
  obtain ⟨⟨chain, front, back, carved, rep⟩, counted, small⟩ := inv
  obtain ⟨noWrap, answers⟩ := enabled
  have amount : (state.allocator.allocatedElementsAmount + 1) % 2 ^ 64 =
      state.allocator.allocatedElementsAmount + 1 := Nat.mod_eq_of_lt noWrap
  have isLast : state.allocator.ptrs.getLast? = some back := by
    rw [rep.ptrs, List.getLast?_append, List.getLast?_singleton]
    rfl
  unfold step ElemAllocator2.allocate
  simp only [amount, isLast]
  cases isChain : chain with
  | cons unit rest =>
      rw [isChain] at rep
      have isFirst : state.allocator.freeList = unit := rep.freeList
      have nonzero : unit ≠ 0 := rep.linked.1
      rw [if_pos (isFirst ▸ nonzero)]
      simp only [Option.bind_eq_bind, Option.bind_some]
      rw [if_neg (isFirst ▸ nonzero)]
      exact ⟨_, rfl, ⟨rest, front, back, carved, rep.pop.recount _⟩, Nat.succ_le_succ counted,
        noWrap⟩
  | nil =>
      rw [isChain] at rep
      have isNull : state.allocator.freeList = 0 := rep.freeList
      have blockSizeIs : blockSize elemSize = blockElements * elemSizeInDSize elemSize := rfl
      rw [if_neg (by simp [isNull])]
      by_cases whole : state.allocator.headIndex = blockSize elemSize
      · have isWhole : carved = blockElements := by
          rw [rep.headIndex, blockSizeIs] at whole
          exact Nat.eq_of_mul_eq_mul_right (elemSizeInDSize_pos word) whole
        rw [if_pos whole]
        by_cases throws : answer = 0
        · rw [if_pos throws]
          exact ⟨_, rfl, ⟨[], front, back, carved, rep.recount _⟩, Nat.le_succ_of_le counted,
            noWrap⟩
        · have fresh := answers.resolve_left throws
          rw [if_neg throws]
          simp only [Option.pure_def, Option.bind_eq_bind, Option.bind_some]
          rw [if_neg throws]
          exact ⟨_, rfl, ⟨[], state.allocator.ptrs, answer, 1,
            (rep.grow isWhole throws fresh.1 fresh.2).recount _⟩, Nat.succ_le_succ counted, noWrap⟩
      · have room : carved < blockElements := by
          rw [rep.headIndex, blockSizeIs] at whole
          apply Nat.lt_of_le_of_ne rep.bound
          exact fun isWhole => whole (congrArg (· * elemSizeInDSize elemSize) isWhole)
        have nonzero : back ≠ 0 := rep.blocks.nonzero back (by simp [rep.ptrs])
        rw [if_neg whole]
        simp only [Option.pure_def, Option.bind_eq_bind, Option.bind_some]
        rw [if_neg (by omega)]
        exact ⟨_, rfl, ⟨[], front, back, carved + 1, (rep.advance room).recount _⟩,
          Nat.succ_le_succ counted, noWrap⟩

theorem amount_pred {amount : Nat} (positive : 0 < amount) (small : amount < 2 ^ 64) :
    (amount + sizeMax) % 2 ^ 64 = amount - 1 := by
  unfold sizeMax
  omega

theorem inv_deallocate (inv : Inv elemSize state) (word : 0 < elemSize) {unit : Nat}
    (member : unit ∈ state.live) :
    Inv elemSize ⟨state.allocator.deallocate unit, state.live.erase unit⟩ := by
  obtain ⟨⟨chain, front, back, carved, rep⟩, counted, small⟩ := inv
  have nonzero := (rep.blocks.unit_small (rep.mem_units (.inr member))).1
  have positive := List.length_pos_of_mem member
  have shorter := List.length_erase_of_mem member
  have amount := amount_pred (Nat.lt_of_lt_of_le positive counted) small
  unfold ElemAllocator2.deallocate
  rw [if_neg nonzero]
  simp only [amount]
  by_cases isLast : state.allocator.allocatedElementsAmount - 1 = 0
  · rw [if_pos isLast]
    have noneLive : state.live.erase unit = [] := by
      rw [← List.length_eq_zero_iff]
      omega
    obtain ⟨first, cleared⟩ := rep.reset
      (Function.update state.allocator.memory unit state.allocator.freeList)
      (state.allocator.allocatedElementsAmount - 1)
    rw [noneLive]
    exact ⟨⟨[], [], first, 0, cleared⟩, Nat.zero_le _, isLast ▸ Nat.two_pow_pos 64⟩
  · rw [if_neg isLast]
    refine ⟨⟨unit :: chain, front, back, carved, (rep.push word member).recount _⟩, ?_, ?_⟩
    · simp only
      omega
    · simp only
      omega

theorem inv_write (inv : Inv elemSize state) (word : 0 < elemSize) {place : Nat} (value : Nat)
    (enabled : Enabled elemSize state (.write place value)) :
    Inv elemSize { state with allocator := { state.allocator with
      memory := Function.update state.allocator.memory place value } } := by
  obtain ⟨⟨chain, front, back, carved, rep⟩, counted, small⟩ := inv
  refine ⟨⟨chain, front, back, carved, rep.congr ?_⟩, counted, small⟩
  intro unit isFree
  have isUnit := rep.mem_units (.inl isFree)
  apply Function.update_of_ne
  intro isPlace
  have positive := elemSizeInDSize_pos word
  rcases enabled with noBlock | ⟨element, isLive, after, before⟩
  · obtain ⟨block, isBlock, inBlock⟩ := List.mem_flatMap.mp isUnit
    have bounds := unit_bounds inBlock
    exact noBlock block isBlock ⟨by omega, by omega⟩
  · have different : unit ≠ element := fun same => rep.disjoint word isFree (same ▸ isLive)
    have apart := rep.blocks.units_apart isUnit (rep.mem_units (.inr isLive)) different
    unfold Apart at apart
    omega

theorem inv_step (inv : Inv elemSize state) (word : 0 < elemSize) {event : Event}
    (enabled : Enabled elemSize state event) :
    ∃ next, step elemSize state event = some next ∧ Inv elemSize next := by
  cases event with
  | allocate answer => exact inv_allocate inv word enabled
  | deallocate ptr =>
      refine ⟨_, rfl, ?_⟩
      by_cases isLive : ptr ∈ state.live
      · exact inv_deallocate inv word isLive
      · have isNull : ptr = 0 := enabled.resolve_right isLive
        rw [List.erase_of_not_mem isLive, ElemAllocator2.deallocate, if_pos isNull]
        exact inv
  | write place value => exact ⟨_, rfl, inv_write inv word value enabled⟩

theorem inv_reachable (word : 0 < elemSize)
    (reachable : (machine elemSize).Reachable (fun _ _ => True) state) : Inv elemSize state := by
  apply reachable.invariant (fun _ => inv_init)
  intro state event next inv enabled _ result
  obtain ⟨other, isOther, newInv⟩ := inv_step inv word enabled
  cases result.symm.trans isOther
  exact newInv

end MallocSurvey.FsbAllocator2
