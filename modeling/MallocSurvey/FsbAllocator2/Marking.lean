import MallocSurvey.Library.GapFilling
import MallocSurvey.FsbAllocator2.Steps

/-! # What `cleanSweep` marks and keeps

After the first two loops the units that are marked are those that are not live. Of the
blocks behind the first one those with a live element are kept, and `headIndex` is lowered to
the end of the last live element of the block that has become the last one. -/

namespace MallocSurvey.FsbAllocator2

open Library FsbAllocator

variable {elemSize unusedValue : Nat} {allocator : ElemAllocator2}
  {live chain front : List Nat} {back carved : Nat} {state : State} {memory : Words}

/-! ## Marking -/

theorem steps_units (word : 0 < elemSize) (first : Nat) :
    steps (first * elemSizeInDSize elemSize) (blockSize elemSize) (elemSizeInDSize elemSize) =
      run (first * elemSizeInDSize elemSize) (blockElements - first)
        (elemSizeInDSize elemSize) := by
  have positive := elemSizeInDSize_pos word
  unfold steps blockSize
  congr 1
  rw [← Nat.sub_mul, Nat.add_sub_assoc positive, Nat.add_comm,
    Nat.add_mul_div_right _ _ positive, Nat.div_eq_of_lt (by omega), Nat.zero_add]

theorem map_run (base first count stride : Nat) :
    (run first count stride).map (base + ·) = run (base + first) count stride := by
  simp [run, Nat.add_assoc]

/-- The first loop follows the chain to its end. -/
theorem markFree_eq {fuel first : Nat} (enough : chain.length < fuel) (nodup : chain.Nodup)
    (linked : Linked id memory chain) (isFirst : first = chain.headD 0) :
    ∃ marked, ElemAllocator2.markFree unusedValue fuel first memory = some marked ∧
      ∀ place, marked place = if place ∈ chain then unusedValue else memory place := by
  induction chain generalizing fuel first memory with
  | nil =>
      obtain ⟨fuel, rfl⟩ := Nat.exists_eq_succ_of_ne_zero (Nat.ne_zero_of_lt enough)
      refine ⟨memory, ?_, fun place => by simp⟩
      rw [ElemAllocator2.markFree]
      exact if_pos isFirst
  | cons unit rest induction =>
      obtain ⟨fuel, rfl⟩ := Nat.exists_eq_succ_of_ne_zero (Nat.ne_zero_of_lt enough)
      rw [List.nodup_cons] at nodup
      have isUnit : first = unit := isFirst
      subst isUnit
      have links : Linked id (Function.update memory first unusedValue) rest := by
        apply linked.2.2.congr
        intro other member
        apply Function.update_of_ne
        intro same
        have same : other = first := same
        exact nodup.1 (same ▸ member)
      obtain ⟨marked, result, spec⟩ :=
        induction (Nat.lt_of_succ_lt_succ enough) nodup.2 links linked.2.1
      refine ⟨marked, ?_, ?_⟩
      · rw [ElemAllocator2.markFree, if_neg linked.1]
        exact result
      · intro place
        rw [spec]
        by_cases inRest : place ∈ rest
        · rw [if_pos inRest, if_pos (List.mem_cons_of_mem _ inRest)]
        · rw [if_neg inRest]
          by_cases same : place = first
          · rw [same, Function.update_self, if_pos List.mem_cons_self]
          · rw [Function.update_of_ne same, if_neg (by simp [same, inRest])]

theorem foldl_update (base value : Nat) (offsets : List Nat) (memory : Words) (place : Nat) :
    offsets.foldl (fun memory i => Function.update memory (base + i) value) memory place =
      if place ∈ offsets.map (base + ·) then value else memory place := by
  induction offsets generalizing memory with
  | nil => simp
  | cons first rest induction =>
      rw [List.foldl_cons, induction, List.map_cons]
      by_cases inRest : place ∈ rest.map (base + ·)
      · rw [if_pos inRest, if_pos (List.mem_cons_of_mem _ inRest)]
      · rw [if_neg inRest]
        by_cases same : place = base + first
        · rw [same, Function.update_self, if_pos List.mem_cons_self]
        · rw [Function.update_of_ne same, if_neg]
          rw [List.mem_cons, not_or]
          exact ⟨same, inRest⟩

theorem markRest_eq (word : 0 < elemSize) (place : Nat) :
    ElemAllocator2.markRest elemSize unusedValue (carved * elemSizeInDSize elemSize) back memory
        place =
      if place ∈ run (back + carved * elemSizeInDSize elemSize) (blockElements - carved)
        (elemSizeInDSize elemSize) then unusedValue else memory place := by
  rw [ElemAllocator2.markRest, steps_units word, foldl_update, map_run]

/-- A memory in which exactly the units that are not live are marked. -/
structure Marked (elemSize unusedValue : Nat) (allocator : ElemAllocator2) (live : List Nat)
    (memory : Words) : Prop where
  marked : ∀ unit ∈ allocator.ptrs.flatMap (unitsOf elemSize),
    memory unit = unusedValue ↔ unit ∉ live
  same : ∀ unit ∈ live, ∀ offset < elemSizeInDSize elemSize,
    memory (unit + offset) = allocator.memory (unit + offset)

theorem marked_of_rep (rep : Rep elemSize allocator live chain front back carved)
    (word : 0 < elemSize) (unmarked : ∀ unit ∈ live, allocator.memory unit ≠ unusedValue) :
    ∃ memory, ElemAllocator2.markFree unusedValue
        (allocator.ptrs.length * blockElements + 1) allocator.freeList allocator.memory =
          some memory ∧
      Marked elemSize unusedValue allocator live
        (ElemAllocator2.markRest elemSize unusedValue allocator.headIndex back memory) := by
  have nodup := rep.nodup word
  have enough : chain.length < allocator.ptrs.length * blockElements + 1 := by
    have length := rep.length
    have bound := rep.bound
    have whole : allocator.ptrs.length * blockElements =
        front.length * blockElements + blockElements := by
      rw [rep.ptrs, List.length_append, List.length_singleton, Nat.succ_mul]
    omega
  obtain ⟨memory, result, spec⟩ := @markFree_eq unusedValue _ _ _ _ enough
    (List.nodup_append.mp nodup).1 rep.linked rep.freeList
  have parts : allocator.ptrs.flatMap (unitsOf elemSize) =
      carvedUnits elemSize front back carved ++
        run (back + carved * elemSizeInDSize elemSize) (blockElements - carved)
          (elemSizeInDSize elemSize) := by
    rw [rep.ptrs, ← allUnits_snoc, carvedUnits, carvedUnits, List.append_assoc, ← run_add,
      Nat.add_sub_cancel' rep.bound]
  have unitsNodup := rep.blocks.units_nodup word
  rw [parts] at unitsNodup
  have notRest : ∀ unit ∈ live, unit ∉ run (back + carved * elemSizeInDSize elemSize)
      (blockElements - carved) (elemSizeInDSize elemSize) := by
    intro unit isLive inRest
    have isCarved := rep.units.mem_iff.mp (List.mem_append_right chain isLive)
    exact (List.nodup_append.mp unitsNodup).2.2 unit isCarved unit inRest rfl
  refine ⟨memory, result, ?_, ?_⟩
  · intro unit isUnit
    rw [rep.headIndex, markRest_eq word, spec]
    constructor
    · intro isMarked isLive
      rw [if_neg (notRest unit isLive), if_neg fun isFree => rep.disjoint word isFree isLive]
        at isMarked
      exact unmarked unit isLive isMarked
    · intro notLive
      rw [parts, List.mem_append] at isUnit
      rcases isUnit with isCarved | inRest
      · have isFree : unit ∈ chain := by
          have member := rep.units.mem_iff.mpr isCarved
          exact (List.mem_append.mp member).resolve_right notLive
        rw [if_pos isFree, ite_self]
      · rw [if_pos inRest]
  · intro unit isLive offset inUnit
    have isUnit := rep.mem_units (.inr isLive)
    have outside : ∀ other ∈ allocator.ptrs.flatMap (unitsOf elemSize), other ≠ unit →
        unit + offset ≠ other := by
      intro other isOther different same
      have apart := rep.blocks.units_apart isUnit isOther different.symm
      have positive := elemSizeInDSize_pos word
      unfold Apart at apart
      omega
    rw [rep.headIndex, markRest_eq word, spec, if_neg, if_neg]
    · intro isFree
      refine outside _ (rep.mem_units (.inl isFree))
        (fun same => ?_) rfl
      rw [same] at isFree
      exact rep.disjoint word isFree isLive
    · intro inRest
      have isOther : unit + offset ∈ allocator.ptrs.flatMap (unitsOf elemSize) := by
        rw [parts]
        exact List.mem_append_right _ inRest
      refine outside _ isOther (fun same => ?_) rfl
      rw [same] at inRest
      exact notRest unit isLive inRest

/-! ## The blocks that are kept -/

/-- An element of the block is live. -/
def used (elemSize : Nat) (live : List Nat) (block : Nat) : Bool :=
  (unitsOf elemSize block).any fun unit => unit ∈ live

theorem freeAmount_eq (word : 0 < elemSize) (block : Nat) :
    ElemAllocator2.freeAmount elemSize unusedValue memory block =
      (unitsOf elemSize block).countP fun unit => memory unit = unusedValue := by
  have whole := steps_units word 0
  rw [Nat.zero_mul, Nat.sub_zero] at whole
  have isUnits : unitsOf elemSize block =
      (run 0 blockElements (elemSizeInDSize elemSize)).map (block + ·) := by
    rw [map_run, Nat.add_zero, unitsOf]
  rw [ElemAllocator2.freeAmount, whole, isUnits, List.countP_map]
  rfl

theorem Marked.freeAmount_iff (marked : Marked elemSize unusedValue allocator live memory)
    (word : 0 < elemSize) {block : Nat} (isBlock : block ∈ allocator.ptrs) :
    ElemAllocator2.freeAmount elemSize unusedValue memory block = blockElements ↔
      used elemSize live block = false := by
  have length : (unitsOf elemSize block).length = blockElements := run_length _ _ _
  rw [freeAmount_eq word, ← length, List.countP_eq_length, used, List.any_eq_false]
  apply forall₂_congr
  intro unit isUnit
  rw [decide_eq_true_eq, decide_eq_true_eq]
  exact marked.marked unit (List.mem_flatMap.mpr ⟨block, isBlock, isUnit⟩)

/-- The back takes the place of an element. -/
theorem set_back (front middle : List Nat) (first last : Nat) :
    ((front ++ first :: (middle ++ [last])).set front.length
      ((front ++ first :: (middle ++ [last])).getLast (by simp))).dropLast =
        front ++ last :: middle := by
  have isBack : (front ++ first :: (middle ++ [last])).getLast (by simp) = last := by
    simp
  rw [isBack, List.set_append_right _ _ (Nat.le_refl _), Nat.sub_self, List.set_cons_zero,
    ← List.cons_append, ← List.append_assoc, List.dropLast_concat]

theorem set_back_last (front : List Nat) (first : Nat) :
    ((front ++ [first]).set front.length ((front ++ [first]).getLast (by simp))).dropLast =
      front := by
  rw [List.getLast_concat, List.set_append_right _ _ (Nat.le_refl _), Nat.sub_self,
    List.set_cons_zero, List.dropLast_concat]

theorem releaseFree_eq {ptrs : List Nat} (blockInd : Nat)
    (inside : ∀ block ∈ ptrs,
      ElemAllocator2.freeAmount elemSize unusedValue memory block = blockElements ↔
        used elemSize live block = false) :
    ElemAllocator2.releaseFree elemSize unusedValue memory ptrs blockInd =
      ptrs.take blockInd ++ fillGaps (used elemSize live) (ptrs.drop blockInd) := by
  induction ptrs, blockInd using ElemAllocator2.releaseFree.induct elemSize unusedValue memory with
  | case1 ptrs blockInd bound isFree induction =>
      have notUsed := (inside _ (List.getElem_mem bound)).mp isFree
      obtain ⟨front, isFront⟩ : ∃ front, front = ptrs.take blockInd := ⟨_, rfl⟩
      obtain ⟨first, isFirst⟩ : ∃ first, first = ptrs[blockInd] := ⟨_, rfl⟩
      have split : ptrs = front ++ first :: ptrs.drop (blockInd + 1) := by
        rw [isFront, isFirst, ← List.drop_eq_getElem_cons bound, List.take_append_drop]
      have frontLength : front.length = blockInd := by
        rw [isFront, List.length_take, Nat.min_eq_left (Nat.le_of_lt bound)]
      rw [← isFirst] at notUsed
      rw [ElemAllocator2.releaseFree, dif_pos bound, if_pos isFree]
      clear isFront
      subst frontLength
      rcases List.eq_nil_or_concat (ptrs.drop (front.length + 1)) with isLast | ⟨middle, last, isBack⟩
      · rw [isLast] at split
        clear isLast
        subst split
        rw [set_back_last] at induction ⊢
        rw [induction fun block member => inside block (List.mem_append_left _ member),
          List.drop_left, fillGaps_single_neg notUsed, List.take_left, List.take_length,
          List.drop_length, fillGaps]
      · rw [isBack, List.concat_eq_append] at split
        clear isBack
        subst split
        rw [set_back] at induction ⊢
        rw [induction, List.drop_left, List.drop_left, List.take_left, List.take_left,
          fillGaps_cons_snoc notUsed]
        intro block member
        apply inside
        rw [List.mem_append, List.mem_cons] at member
        rcases member with inFront | isLast | inMiddle
        · exact List.mem_append_left _ inFront
        · simp [isLast]
        · simp [inMiddle]
  | case2 ptrs blockInd bound notFree induction =>
      have isUsed : used elemSize live ptrs[blockInd] = true := by
        rw [inside _ (List.getElem_mem bound)] at notFree
        simpa using notFree
      rw [ElemAllocator2.releaseFree, dif_pos bound, if_neg notFree, induction inside,
        List.drop_eq_getElem_cons bound, fillGaps_cons_pos isUsed,
        List.take_succ_eq_append_getElem bound, List.append_assoc, List.singleton_append]
  | case3 ptrs blockInd outside =>
      rw [ElemAllocator2.releaseFree, dif_neg outside, List.take_of_length_le (by omega),
        List.drop_of_length_le (by omega), fillGaps, List.append_nil]

/-! ## The end of the last live element -/

/-- The number of units up to the last live one of the first few. -/
def prefixLength (elemSize : Nat) (live : List Nat) (block : Nat) : Nat → Nat
  | 0 => 0
  | units + 1 =>
      if block + units * elemSizeInDSize elemSize ∈ live then units + 1
      else prefixLength elemSize live block units

theorem prefixLength_le (block count : Nat) :
    prefixLength elemSize live block count ≤ count := by
  induction count with
  | zero => exact Nat.le_refl _
  | succ units induction =>
      rw [prefixLength]
      split
      · exact Nat.le_refl _
      · exact Nat.le_succ_of_le induction

theorem lt_prefixLength {block count index : Nat} (below : index < count)
    (isLive : block + index * elemSizeInDSize elemSize ∈ live) :
    index < prefixLength elemSize live block count := by
  induction count with
  | zero => omega
  | succ units induction =>
      rw [prefixLength]
      split
      · exact below
      · next notLive =>
          apply induction
          apply Nat.lt_of_le_of_ne (Nat.le_of_lt_succ below)
          exact fun same => notLive (same ▸ isLive)

theorem lowerHead_eq {block count : Nat}
    (marked : ∀ index < count,
      memory (block + index * elemSizeInDSize elemSize) = unusedValue ↔
        block + index * elemSizeInDSize elemSize ∉ live) :
    ElemAllocator2.lowerHead elemSize unusedValue block memory count =
      prefixLength elemSize live block count * elemSizeInDSize elemSize := by
  induction count with
  | zero => exact (Nat.zero_mul _).symm
  | succ units induction =>
      have isMarked := marked units (Nat.lt_succ_self _)
      rw [ElemAllocator2.lowerHead, prefixLength]
      by_cases isLive : block + units * elemSizeInDSize elemSize ∈ live
      · rw [if_pos isLive, if_pos (by simp [isMarked, isLive])]
      · rw [if_neg isLive, if_neg (by simp [isMarked, isLive])]
        exact induction fun index below => marked index (Nat.lt_succ_of_lt below)

end MallocSurvey.FsbAllocator2
