import Mathlib.Data.List.GetD
import Mathlib.Data.List.ProdSigma
import MallocSurvey.FsbAllocator2.Sweep

/-! # When `cleanSweep` is safe

The units that `cleanSweep` keeps are those up to the last live one. It is safe if and only
if the recorded amount is their number: every call of `deallocate` lowers the amount, so the
amount is that of the live elements afterwards only if it counted the free units as well. -/

namespace MallocSurvey.FsbAllocator2

open Library FsbAllocator

variable {elemSize unusedValue : Nat} {allocator next : ElemAllocator2}
  {live chain front ptrs : List Nat} {back carved : Nat} {state : State} {memory : Words}

/-! ## The units that are kept -/

/-- The block that ends up last: blocks without a live element are replaced from the back. -/
def closing (elemSize : Nat) (live : List Nat) : List Nat → Nat
  | [] => 0
  | first :: later =>
      ((later.drop ((later.filter (used elemSize live)).length - 1)).find?
        (used elemSize live)).getD first

/-- The number of the units that end up in front of `headIndex` or in another block. -/
def keptUnits (elemSize : Nat) (live ptrs : List Nat) : Nat :=
  (ptrs.tail.filter (used elemSize live)).length * blockElements +
    prefixLength elemSize live (closing elemSize live ptrs) blockElements

theorem Blocks.of_subperm {other : List Nat} (blocks : Blocks elemSize ptrs)
    (subperm : other.Subperm ptrs) : Blocks elemSize other where
  nonzero block member := blocks.nonzero block (subperm.subset member)
  fits block member := blocks.fits block (subperm.subset member)
  apart := by
    obtain ⟨middle, perm, sublist⟩ := subperm
    have apart := blocks.apart.sublist sublist
    exact (perm.pairwise_iff Apart.symm).mp apart

theorem kept_blocks (first : Nat) (later : List Nat) :
    ∃ front back, first :: fillGaps (used elemSize live) later = front ++ [back] ∧
      back = closing elemSize live (first :: later) ∧
      front.length = (later.filter (used elemSize live)).length := by
  obtain ⟨front, back, split⟩ := List.exists_cons_of_ne_nil
    (l := (first :: fillGaps (used elemSize live) later).reverse) (by simp)
  have whole : first :: fillGaps (used elemSize live) later = back.reverse ++ [front] := by
    rw [← List.reverse_reverse (first :: _), split, List.reverse_cons]
  refine ⟨back.reverse, front, whole, ?_, ?_⟩
  · have isLast : (first :: fillGaps (used elemSize live) later).getLast? = some front := by
      rw [whole, List.getLast?_append, List.getLast?_singleton, Option.some_or]
    rw [List.getLast?_cons, fillGaps_getLast?] at isLast
    exact (Option.some.inj isLast).symm
  · have length := congrArg List.length whole
    rw [List.length_cons, (fillGaps_perm later).length_eq, List.length_append,
      List.length_singleton] at length
    omega

/-! ## The positions of the last loops -/

theorem unitAt_front (front : List Nat) (back : Nat) :
    ((List.range front.length).flatMap fun blockInd =>
      (run 0 blockElements (elemSizeInDSize elemSize)).map fun i =>
        unitAt (front ++ [back]) (blockInd, i)) = front.flatMap (unitsOf elemSize) := by
  have each : ∀ block, (run 0 blockElements (elemSizeInDSize elemSize)).map (block + ·) =
      unitsOf elemSize block := by
    intro block
    rw [map_run, Nat.add_zero, unitsOf]
  have blocks : (List.range front.length).map (fun blockInd => (front ++ [back]).getD blockInd 0) =
      front := by
    apply List.ext_getElem
    · simp
    · intro index inRange inFront
      rw [List.getElem_map, List.getElem_range, List.getD_append _ _ _ _ inFront,
        List.getD_eq_getElem _ _ inFront]
  simp only [unitAt, each]
  conv_rhs => rw [← blocks, List.flatMap_map]

/-- The loops run over the kept units and end there. -/
theorem positions_eq (word : 0 < elemSize) (front : List Nat) (back : Nat) {top : Nat}
    (bound : top ≤ blockElements) :
    ∃ before after,
      (List.range (front.length + 1)).product
        (steps 0 (blockSize elemSize) (elemSizeInDSize elemSize)) = before ++ after ∧
      before.map (unitAt (front ++ [back])) = carvedUnits elemSize front back top ∧
      Within (front ++ [back]) front.length (top * elemSizeInDSize elemSize) before ∧
      (after = [] ∨ ∃ rest, after = (front.length, top * elemSizeInDSize elemSize) :: rest) := by
  have positive := elemSizeInDSize_pos word
  have whole := steps_units word 0
  rw [Nat.zero_mul, Nat.sub_zero] at whole
  have split : run 0 blockElements (elemSizeInDSize elemSize) =
      run 0 top (elemSizeInDSize elemSize) ++ run (top * elemSizeInDSize elemSize)
        (blockElements - top) (elemSizeInDSize elemSize) := by
    have parts := run_add 0 top (blockElements - top) (elemSizeInDSize elemSize)
    rwa [Nat.add_sub_cancel' bound, Nat.zero_add] at parts
  refine ⟨(List.range front.length).product (run 0 blockElements (elemSizeInDSize elemSize)) ++
      (run 0 top (elemSizeInDSize elemSize)).map (front.length, ·),
    (run (top * elemSizeInDSize elemSize) (blockElements - top)
      (elemSizeInDSize elemSize)).map (front.length, ·), ?_, ?_, ?_, ?_⟩
  · rw [whole, List.range_succ, List.append_assoc, ← List.map_append, ← split]
    exact List.flatMap_append.trans (congrArg _ (List.flatMap_singleton _ _))
  · rw [List.map_append, carvedUnits, ← unitAt_front front back]
    refine congrArg₂ (· ++ ·) ?_ ?_
    · rw [List.product, List.map_flatMap]
      apply List.flatMap_congr
      intro blockInd _
      rw [List.map_map]
      rfl
    · have isBack : (front ++ [back]).getD front.length 0 = back := by
        rw [List.getD_append_right _ _ _ _ (Nat.le_refl _), Nat.sub_self]
        rfl
      rw [List.map_map]
      have map_eq := map_run back 0 top (elemSizeInDSize elemSize)
      rw [Nat.add_zero] at map_eq
      rw [← map_eq]
      apply List.map_congr_left
      intro i _
      exact congrArg (· + i) isBack
  · intro position member
    rw [List.length_append, List.length_singleton]
    rcases List.mem_append.mp member with inFront | inBack
    · obtain ⟨inRange, _⟩ := List.pair_mem_product.mp inFront
      rw [List.mem_range] at inRange
      exact ⟨Nat.lt_succ_of_lt inRange, fun atEnd => by omega⟩
    · obtain ⟨i, inRun, isPosition⟩ := List.mem_map.mp inBack
      obtain ⟨index, below, isIndex⟩ := mem_run.mp inRun
      subst isPosition
      refine ⟨Nat.lt_succ_self _, ?_⟩
      rintro ⟨_, atEnd⟩
      have shorter := Nat.mul_lt_mul_of_pos_right below positive
      simp only at atEnd
      omega
  · rcases Nat.eq_zero_or_pos (blockElements - top) with isWhole | rest
    · left
      rw [isWhole, run_zero, List.map_nil]
    · right
      obtain ⟨count, isCount⟩ := Nat.exists_eq_succ_of_ne_zero (Nat.ne_zero_of_lt rest)
      rw [isCount, Nat.succ_eq_add_one, run_succ, List.map_cons]
      exact ⟨_, rfl⟩

/-! ## The outcome -/

/-- Before the last loops the kept blocks hold all live elements up to `headIndex`, and the
other units are marked. -/
structure Prepared (elemSize unusedValue : Nat) (allocator : ElemAllocator2) (live : List Nat)
    (memory : Words) (front : List Nat) (back top : Nat) : Prop where
  blocks : Blocks elemSize (front ++ [back])
  bound : top ≤ blockElements
  isMarked : ∀ unit ∈ (front ++ [back]).flatMap (unitsOf elemSize),
    memory unit = unusedValue ↔ unit ∉ live
  holds : live ⊆ carvedUnits elemSize front back top
  kept : keptUnits elemSize live allocator.ptrs = front.length * blockElements + top
  same : ∀ unit ∈ live, ∀ offset < elemSizeInDSize elemSize,
    memory (unit + offset) = allocator.memory (unit + offset)
  result : ElemAllocator2.cleanSweep elemSize unusedValue allocator =
    ElemAllocator2.refree unusedValue front.length
      ((List.range (front.length + 1)).product
        (steps 0 (blockSize elemSize) (elemSizeInDSize elemSize)))
      { allocator with
        ptrs := front ++ [back], headIndex := top * elemSizeInDSize elemSize, freeList := 0
        memory := memory }

theorem prepared (rep : Rep elemSize allocator live chain front back carved)
    (word : 0 < elemSize) (unmarked : ∀ unit ∈ live, allocator.memory unit ≠ unusedValue) :
    ∃ memory newFront newBack top,
      Prepared elemSize unusedValue allocator live memory newFront newBack top := by
  obtain ⟨freed, isFreed, marked⟩ := marked_of_rep rep word unmarked
  obtain ⟨memory, isMemory⟩ : ∃ memory, memory = ElemAllocator2.markRest elemSize unusedValue
    allocator.headIndex back freed := ⟨_, rfl⟩
  rw [← isMemory] at marked
  have isLast : allocator.ptrs.getLast? = some back := by
    rw [rep.ptrs, List.getLast?_append, List.getLast?_singleton, Option.some_or]
  obtain ⟨first, later, isPtrs⟩ := List.exists_cons_of_ne_nil (l := allocator.ptrs) (by
    rw [rep.ptrs]
    simp)
  have released : ElemAllocator2.releaseFree elemSize unusedValue memory allocator.ptrs 1 =
      first :: fillGaps (used elemSize live) later := by
    rw [releaseFree_eq 1 fun block isBlock => marked.freeAmount_iff word isBlock, isPtrs]
    rfl
  obtain ⟨newFront, newBack, isKept, isClosing, frontLength⟩ := @kept_blocks elemSize live first later
  have subperm : (newFront ++ [newBack]).Subperm allocator.ptrs := by
    rw [← isKept, isPtrs]
    exact ⟨_, (fillGaps_perm later).symm.cons first, List.filter_sublist.cons_cons first⟩
  have within : ∀ unit ∈ (newFront ++ [newBack]).flatMap (unitsOf elemSize),
      unit ∈ allocator.ptrs.flatMap (unitsOf elemSize) := by
    intro unit member
    obtain ⟨block, isBlock, inBlock⟩ := List.mem_flatMap.mp member
    exact List.mem_flatMap.mpr ⟨block, subperm.subset isBlock, inBlock⟩
  have isMarked : ∀ unit ∈ (newFront ++ [newBack]).flatMap (unitsOf elemSize),
      memory unit = unusedValue ↔ unit ∉ live :=
    fun unit member => marked.marked unit (within unit member)
  refine ⟨memory, newFront, newBack, prefixLength elemSize live newBack blockElements,
    rep.blocks.of_subperm subperm, prefixLength_le _ _, isMarked, ?_, ?_, marked.same, ?_⟩
  · intro unit isLive
    obtain ⟨block, isBlock, inBlock⟩ := List.mem_flatMap.mp (rep.mem_units (.inr isLive))
    have isUsed : used elemSize live block = true := by
      rw [used, List.any_eq_true]
      exact ⟨unit, inBlock, by simpa using isLive⟩
    have isKeptBlock : block ∈ newFront ++ [newBack] := by
      rw [isPtrs] at isBlock
      rw [← isKept, List.mem_cons, (fillGaps_perm later).mem_iff, List.mem_filter]
      exact (List.mem_cons.mp isBlock).imp id fun inLater => ⟨inLater, isUsed⟩
    rw [carvedUnits, List.mem_append]
    rcases List.mem_append.mp isKeptBlock with inFront | isBack
    · exact .inl (List.mem_flatMap.mpr ⟨block, inFront, inBlock⟩)
    · right
      rw [List.mem_singleton.mp isBack] at inBlock
      obtain ⟨index, below, isUnit⟩ := mem_unitsOf.mp inBlock
      exact mem_run.mpr ⟨index, lt_prefixLength below (isUnit ▸ isLive), isUnit⟩
  · rw [keptUnits, isPtrs, List.tail_cons, ← frontLength, ← isClosing]
  · have isNewLast : (newFront ++ [newBack]).getLast? = some newBack := by
      rw [List.getLast?_append, List.getLast?_singleton, Option.some_or]
    have lowered : ElemAllocator2.lowerHead elemSize unusedValue newBack memory blockElements =
        prefixLength elemSize live newBack blockElements * elemSizeInDSize elemSize := by
      apply lowerHead_eq
      intro index below
      apply isMarked
      exact List.mem_flatMap.mpr ⟨newBack, by simp, mem_unitsOf.mpr ⟨index, below, rfl⟩⟩
    rw [ElemAllocator2.cleanSweep]
    simp only [isFreed, Option.bind_eq_bind, Option.bind_some, isLast, ← isMemory, released, isKept,
      isNewLast, lowered, List.length_append, List.length_singleton, Nat.add_sub_cancel]

/-- The units that the last loops deallocate. -/
def refreed (elemSize : Nat) (live front : List Nat) (back top : Nat) : List Nat :=
  (carvedUnits elemSize front back top).filter fun unit => unit ∉ live

theorem Prepared.refreed_perm {top : Nat}
    (prepared : Prepared elemSize unusedValue allocator live memory front back top)
    (word : 0 < elemSize) (nodup : live.Nodup) :
    (refreed elemSize live front back top ++ live).Perm (carvedUnits elemSize front back top) := by
  have unitsNodup := carvedUnits_nodup prepared.blocks word prepared.bound
  have whole := List.filter_append_perm (fun unit => decide (unit ∉ live))
    (carvedUnits elemSize front back top)
  refine List.Perm.trans (List.Perm.append_left _ ?_) whole
  apply (List.perm_ext_iff_of_nodup nodup (unitsNodup.filter _)).mpr
  intro unit
  rw [List.mem_filter]
  constructor
  · exact fun isLive => ⟨prepared.holds isLive, by simpa using isLive⟩
  · exact fun both => by simpa using both.2

theorem Prepared.refreed_length {top : Nat}
    (prepared : Prepared elemSize unusedValue allocator live memory front back top)
    (word : 0 < elemSize) (nodup : live.Nodup) :
    (refreed elemSize live front back top).length + live.length =
      keptUnits elemSize live allocator.ptrs := by
  rw [← List.length_append, (prepared.refreed_perm word nodup).length_eq, carvedUnits_length,
    prepared.kept]

theorem prefixLength_nil (block count : Nat) : prefixLength elemSize [] block count = 0 := by
  induction count with
  | zero => rfl
  | succ units induction => rw [prefixLength, if_neg (List.not_mem_nil), induction]

theorem keptUnits_nil (ptrs : List Nat) : keptUnits elemSize [] ptrs = 0 := by
  have noneUsed : ptrs.tail.filter (used elemSize []) = [] := by
    rw [List.filter_eq_nil_iff]
    simp [used]
  rw [keptUnits, noneUsed, prefixLength_nil, List.length_nil, Nat.zero_mul]

section Outcome

variable {top : Nat}
  (prepared : Prepared elemSize unusedValue allocator live memory front back top)
  (word : 0 < elemSize) (nodup : live.Nodup)
  (small : allocator.allocatedElementsAmount < 2 ^ 64)

include prepared

theorem filter_marked {before : List (Nat × Nat)}
    (isCarved : before.map (unitAt (front ++ [back])) = carvedUnits elemSize front back top) :
    (before.map (unitAt (front ++ [back]))).filter (fun unit => memory unit = unusedValue) =
      refreed elemSize live front back top := by
  rw [isCarved, refreed]
  apply List.filter_congr
  intro unit member
  exact decide_eq_decide.mpr (prepared.isMarked unit (mem_carvedUnits prepared.bound member))

theorem unit_nonzero {before : List (Nat × Nat)}
    (isCarved : before.map (unitAt (front ++ [back])) = carvedUnits elemSize front back top) :
    ∀ position ∈ before, unitAt (front ++ [back]) position ≠ 0 := by
  intro position member
  have isUnit := List.mem_map_of_mem (f := unitAt (front ++ [back])) member
  rw [isCarved] at isUnit
  exact (prepared.blocks.unit_small (mem_carvedUnits prepared.bound isUnit)).1

include word nodup small

/-- With fewer calls of `deallocate` than the amount says, they are undone. -/
theorem sweep_clean (fewer : refreed elemSize live front back top = [] ∨
      (refreed elemSize live front back top).length < allocator.allocatedElementsAmount) :
    ∃ next chain, allocator.cleanSweep elemSize unusedValue = some next ∧
      Rep elemSize next live chain front back top ∧
      next.allocatedElementsAmount = allocator.allocatedElementsAmount -
        (refreed elemSize live front back top).length ∧
      ∀ unit ∈ live, ∀ offset < elemSizeInDSize elemSize,
        next.memory (unit + offset) = allocator.memory (unit + offset) := by
  obtain ⟨before, after, isPositions, isCarved, within, atEnd⟩ :=
    positions_eq word front back prepared.bound
  have unitsNodup := carvedUnits_nodup prepared.blocks word prepared.bound
  obtain ⟨next, result, isNext⟩ := @refree_append unusedValue front.length
    { allocator with
      ptrs := front ++ [back], headIndex := top * elemSizeInDSize elemSize, freeList := 0
      memory := memory }
    [] before after within (unit_nonzero prepared isCarved)
    (by rw [List.append_nil, isCarved]; exact unitsNodup) small rfl trivial
    (refreed elemSize live front back top) (filter_marked prepared isCarved).symm fewer
  have ended : ElemAllocator2.refree unusedValue front.length after next = some next := by
    rcases atEnd with isNil | ⟨rest, isCons⟩
    · rw [isNil, ElemAllocator2.refree]
    · rw [isCons, ElemAllocator2.refree, if_pos ⟨rfl, isNext.headIndex.symm⟩]
  refine ⟨next, (refreed elemSize live front back top).reverse, ?_, ⟨isNext.ptrs, ?_,
    isNext.headIndex, prepared.bound, ?_, ?_, ?_⟩, isNext.amount, ?_⟩
  · rw [prepared.result, isPositions, result, ended]
  · rw [isNext.ptrs]
    exact prepared.blocks
  · rw [isNext.freeList, List.append_nil]
  · have linked := isNext.linked
    rw [List.append_nil] at linked
    exact linked
  · exact ((List.reverse_perm _).append_right live).trans (prepared.refreed_perm word nodup)
  · intro unit isLive offset inUnit
    refine (isNext.same _ ?_).trans (prepared.same unit isLive offset inUnit)
    intro isFreed
    rw [refreed, List.mem_filter] at isFreed
    have isUnit := mem_carvedUnits prepared.bound isFreed.1
    have isLiveUnit := mem_carvedUnits prepared.bound (prepared.holds isLive)
    have different : unit ≠ unit + offset := by
      intro same
      rw [← same] at isFreed
      simp [isLive] at isFreed
    have apart := prepared.blocks.units_apart isLiveUnit isUnit different
    unfold Apart at apart
    omega

/-- Otherwise all blocks are freed on the way, and the amount cannot be right. -/
theorem sweep_sunk (counted : live.length ≤ allocator.allocatedElementsAmount)
    (nonempty : live ≠ [])
    (more : allocator.allocatedElementsAmount ≤ (refreed elemSize live front back top).length)
    (result : allocator.cleanSweep elemSize unusedValue = some next) :
    next.allocatedElementsAmount ≠ live.length := by
  obtain ⟨before, after, isPositions, isCarved, within, _⟩ :=
    positions_eq word front back prepared.bound
  have unitsNodup := carvedUnits_nodup prepared.blocks word prepared.bound
  have positive := List.length_pos_iff.mpr nonempty
  rw [prepared.result, isPositions] at result
  obtain ⟨count, short, enough, amount⟩ := @refree_sunk unusedValue front.length
    { allocator with
      ptrs := front ++ [back], headIndex := top * elemSizeInDSize elemSize, freeList := 0
      memory := memory }
    next before after within (unit_nonzero prepared isCarved)
    (by rw [isCarved]; exact unitsNodup) small (Nat.lt_of_lt_of_le positive counted)
    (by rw [filter_marked prepared isCarved]; exact more) result
  simp only at enough amount
  have bounded : before.length + after.length ≤ 2 ^ 61 := by
    have total := congrArg List.length isPositions
    have whole := steps_units word 0
    rw [Nat.zero_mul, Nat.sub_zero] at whole
    have product := List.length_product (List.range (front.length + 1))
      (steps 0 (blockSize elemSize) (elemSizeInDSize elemSize))
    rw [List.length_range, whole, run_length] at product
    rw [List.length_append] at total
    have total := total.symm.trans (whole ▸ product)
    have few := prepared.blocks.units_length word
    rw [List.length_append, List.length_singleton] at few
    omega
  have fewLive : live.length ≤ 2 ^ 61 := by
    have fewer := (prepared.refreed_perm word nodup).length_eq
    rw [List.length_append, carvedUnits_length] at fewer
    have few := prepared.blocks.units_length word
    have bound := prepared.bound
    rw [List.length_append, List.length_singleton] at few
    omega
  intro isLength
  rw [isLength] at amount
  omega

end Outcome

end MallocSurvey.FsbAllocator2
