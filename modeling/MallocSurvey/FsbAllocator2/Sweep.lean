import MallocSurvey.FsbAllocator2.Marking

/-! # What `cleanSweep` deallocates again

The last loops deallocate the marked units before the new `headIndex`, and every call of
`deallocate` decrements the amount. If there are fewer of them than the amount says, they end
up on the free list; otherwise all blocks are freed on the way. -/

namespace MallocSurvey.FsbAllocator2

open Library FsbAllocator

variable {elemSize unusedValue lastBlockIndex : Nat} {allocator next : ElemAllocator2}
  {live chain front : List Nat} {back carved : Nat} {state : State} {memory : Words}
  {positions before after : List (Nat × Nat)}

/-! ## The loops -/

theorem deallocate_amount (ptr : Nat) :
    ((allocator.deallocate ptr).allocatedElementsAmount + if ptr = 0 then 0 else 1) % 2 ^ 64 =
      allocator.allocatedElementsAmount % 2 ^ 64 := by
  unfold ElemAllocator2.deallocate ElemAllocator2.freeAll sizeMax
  by_cases isNull : ptr = 0
  · rw [if_pos isNull, if_pos isNull, Nat.add_zero]
  · rw [if_neg isNull, if_neg isNull]
    simp only
    split
    · simp only
      omega
    · simp only
      omega

/-- Whatever the loops meet, every call decrements the amount. -/
theorem refree_amount
    (result : ElemAllocator2.refree unusedValue lastBlockIndex positions allocator = some next) :
    ∃ count ≤ positions.length,
      (next.allocatedElementsAmount + count) % 2 ^ 64 =
        allocator.allocatedElementsAmount % 2 ^ 64 := by
  induction positions generalizing allocator with
  | nil =>
      cases result
      exact ⟨0, Nat.le_refl _, rfl⟩
  | cons position rest induction =>
      obtain ⟨blockInd, i⟩ := position
      rw [ElemAllocator2.refree] at result
      split at result
      · cases result
        exact ⟨0, Nat.zero_le _, rfl⟩
      · cases isBlock : allocator.ptrs[blockInd]? with
        | none => simp [isBlock] at result
        | some block =>
            simp only [isBlock, Option.bind_eq_bind, Option.bind_some] at result
            split at result
            · obtain ⟨count, short, amount⟩ := induction result
              have decremented := @deallocate_amount allocator (block + i)
              refine ⟨count + if block + i = 0 then 0 else 1, ?_, ?_⟩
              · rw [List.length_cons]
                split
                · omega
                · omega
              · omega
            · obtain ⟨count, short, amount⟩ := induction result
              exact ⟨count, Nat.le_succ_of_le short, amount⟩

/-- The unit of a pair of `blockInd` and `i`. -/
def unitAt (ptrs : List Nat) (position : Nat × Nat) : Nat := ptrs.getD position.1 0 + position.2

/-- The loops get past these positions. -/
def Within (ptrs : List Nat) (lastBlockIndex headIndex : Nat) (positions : List (Nat × Nat)) :
    Prop :=
  ∀ position ∈ positions, position.1 < ptrs.length ∧
    ¬ (position.1 = lastBlockIndex ∧ position.2 = headIndex)

/-- The marked units are linked in front of the chain. -/
structure Refreed (allocator next : ElemAllocator2) (marks chain : List Nat) : Prop where
  ptrs : next.ptrs = allocator.ptrs
  headIndex : next.headIndex = allocator.headIndex
  amount : next.allocatedElementsAmount = allocator.allocatedElementsAmount - marks.length
  freeList : next.freeList = (marks.reverse ++ chain).headD 0
  linked : Linked id next.memory (marks.reverse ++ chain)
  same : ∀ place ∉ marks, next.memory place = allocator.memory place

theorem refree_cons {blockInd i : Nat} {rest : List (Nat × Nat)}
    (within : Within allocator.ptrs lastBlockIndex allocator.headIndex ((blockInd, i) :: rest)) :
    ElemAllocator2.refree unusedValue lastBlockIndex ((blockInd, i) :: rest ++ after) allocator =
      if allocator.memory (unitAt allocator.ptrs (blockInd, i)) = unusedValue then
        ElemAllocator2.refree unusedValue lastBlockIndex (rest ++ after)
          (allocator.deallocate (unitAt allocator.ptrs (blockInd, i)))
      else ElemAllocator2.refree unusedValue lastBlockIndex (rest ++ after) allocator := by
  obtain ⟨bound, notEnd⟩ := within _ List.mem_cons_self
  have isBlock := List.getElem?_eq_getElem bound
  rw [List.cons_append, ElemAllocator2.refree, if_neg notEnd, isBlock, unitAt,
    List.getD_eq_getElem?_getD, isBlock]
  rfl

/-- Linking a marked unit while the amount stays positive. -/
theorem deallocate_eq {unit : Nat} (nonzero : unit ≠ 0)
    (small : allocator.allocatedElementsAmount < 2 ^ 64)
    (more : 1 < allocator.allocatedElementsAmount) :
    allocator.deallocate unit = { allocator with
      memory := Function.update allocator.memory unit allocator.freeList
      freeList := unit
      allocatedElementsAmount := allocator.allocatedElementsAmount - 1 } := by
  have amount := amount_pred (Nat.lt_of_succ_lt more) small
  unfold ElemAllocator2.deallocate
  rw [if_neg nonzero]
  simp only [amount]
  rw [if_neg (by omega)]

theorem filter_update {units : List Nat} {unit : Nat} (fresh : unit ∉ units) (value : Nat) :
    units.filter (fun other => Function.update memory unit value other = unusedValue) =
      units.filter fun other => memory other = unusedValue := by
  apply List.filter_congr
  intro other member
  have different : other ≠ unit := by
    intro same
    exact fresh (same ▸ member)
  rw [Function.update_of_ne different]

theorem refree_append
    (within : Within allocator.ptrs lastBlockIndex allocator.headIndex before)
    (nonzero : ∀ position ∈ before, unitAt allocator.ptrs position ≠ 0)
    (nodup : (before.map (unitAt allocator.ptrs) ++ chain).Nodup)
    (small : allocator.allocatedElementsAmount < 2 ^ 64)
    (isFirst : allocator.freeList = chain.headD 0) (linked : Linked id allocator.memory chain)
    {marks : List Nat}
    (isMarks : marks = (before.map (unitAt allocator.ptrs)).filter
      fun unit => allocator.memory unit = unusedValue)
    (fewer : marks = [] ∨ marks.length < allocator.allocatedElementsAmount) :
    ∃ next, ElemAllocator2.refree unusedValue lastBlockIndex (before ++ after) allocator =
        ElemAllocator2.refree unusedValue lastBlockIndex after next ∧
      Refreed allocator next marks chain := by
  induction before generalizing allocator chain marks with
  | nil =>
      subst isMarks
      exact ⟨allocator, rfl, rfl, rfl, rfl, isFirst, linked, fun _ _ => rfl⟩
  | cons position rest induction =>
      obtain ⟨blockInd, i⟩ := position
      have restWithin : Within allocator.ptrs lastBlockIndex allocator.headIndex rest :=
        fun other member => within other (List.mem_cons_of_mem _ member)
      have restNonzero := fun other member => nonzero other (List.mem_cons_of_mem _ member)
      rw [refree_cons within]
      rw [List.map_cons] at nodup isMarks
      have isFresh := (List.nodup_cons.mp (List.cons_append ▸ nodup)).1
      have restNodup := (List.nodup_cons.mp (List.cons_append ▸ nodup)).2
      by_cases isMarked : allocator.memory (unitAt allocator.ptrs (blockInd, i)) = unusedValue
      · rw [if_pos isMarked]
        rw [List.filter_cons_of_pos (by simp [isMarked])] at isMarks
        obtain ⟨unit, isUnit⟩ : ∃ unit, unit = unitAt allocator.ptrs (blockInd, i) := ⟨_, rfl⟩
        obtain ⟨restMarks, isRest⟩ : ∃ restMarks, restMarks =
            (rest.map (unitAt allocator.ptrs)).filter
              fun unit => allocator.memory unit = unusedValue := ⟨_, rfl⟩
        rw [← isUnit, ← isRest] at isMarks
        rw [← isUnit] at isFresh nodup ⊢
        subst isMarks
        have fewer := fewer.resolve_left (List.cons_ne_nil _ _)
        rw [List.length_cons] at fewer
        have unitNonzero : unit ≠ 0 := isUnit ▸ nonzero _ List.mem_cons_self
        rw [deallocate_eq unitNonzero small (by omega)]
        rw [List.mem_append, not_or] at isFresh
        have frame : ∀ other ≠ unit,
            Function.update allocator.memory unit allocator.freeList other =
              allocator.memory other := fun other different => Function.update_of_ne different _ _
        obtain ⟨next, result, refreed⟩ := @induction
          { allocator with
            memory := Function.update allocator.memory unit allocator.freeList
            freeList := unit
            allocatedElementsAmount := allocator.allocatedElementsAmount - 1 }
          (unit :: chain) restWithin restNonzero
          (List.perm_middle.nodup_iff.mpr (by
            rw [List.cons_append] at nodup
            exact nodup))
          (Nat.lt_of_le_of_lt (Nat.sub_le _ _) small) rfl
          ⟨unitNonzero, (Function.update_self ..).trans isFirst, linked.congr fun other member => by
            apply frame
            intro same
            exact isFresh.2 (same ▸ member)⟩
          restMarks (by
            rw [isRest]
            exact (filter_update isFresh.1 _).symm)
          (.inr (by
            simp only
            omega))
        refine ⟨next, result, refreed.ptrs, refreed.headIndex, ?_, ?_, ?_, ?_⟩
        · rw [refreed.amount, List.length_cons]
          simp only
          omega
        · rw [refreed.freeList, List.reverse_cons, List.append_assoc, List.singleton_append]
        · rw [List.reverse_cons, List.append_assoc, List.singleton_append]
          exact refreed.linked
        · intro place outside
          rw [List.mem_cons, not_or] at outside
          rw [refreed.same place outside.2]
          exact frame place outside.1
      · rw [if_neg isMarked]
        rw [List.filter_cons_of_neg (by simp [isMarked])] at isMarks
        exact induction restWithin restNonzero restNodup small isFirst linked isMarks fewer

/-- If all blocks are freed on the way, at least as many calls are made as the amount said. -/
theorem refree_sunk
    (within : Within allocator.ptrs lastBlockIndex allocator.headIndex before)
    (nonzero : ∀ position ∈ before, unitAt allocator.ptrs position ≠ 0)
    (nodup : (before.map (unitAt allocator.ptrs)).Nodup)
    (small : allocator.allocatedElementsAmount < 2 ^ 64)
    (positive : 0 < allocator.allocatedElementsAmount)
    (more : allocator.allocatedElementsAmount ≤ ((before.map (unitAt allocator.ptrs)).filter
      fun unit => allocator.memory unit = unusedValue).length)
    (result : ElemAllocator2.refree unusedValue lastBlockIndex (before ++ after) allocator =
      some next) :
    ∃ count ≤ before.length + after.length, allocator.allocatedElementsAmount ≤ count ∧
      (next.allocatedElementsAmount + count) % 2 ^ 64 =
        allocator.allocatedElementsAmount % 2 ^ 64 := by
  induction before generalizing allocator with
  | nil =>
      rw [List.map_nil, List.filter_nil, List.length_nil] at more
      omega
  | cons position rest induction =>
      obtain ⟨blockInd, i⟩ := position
      have restWithin : Within allocator.ptrs lastBlockIndex allocator.headIndex rest :=
        fun other member => within other (List.mem_cons_of_mem _ member)
      have restNonzero := fun other member => nonzero other (List.mem_cons_of_mem _ member)
      rw [refree_cons within] at result
      rw [List.map_cons, List.nodup_cons] at nodup
      rw [List.map_cons] at more
      rw [List.length_cons]
      by_cases isMarked : allocator.memory (unitAt allocator.ptrs (blockInd, i)) = unusedValue
      · rw [if_pos isMarked] at result
        rw [List.filter_cons_of_pos (by simp [isMarked]), List.length_cons] at more
        have unitNonzero := nonzero _ List.mem_cons_self
        by_cases last : allocator.allocatedElementsAmount = 1
        · obtain ⟨count, short, amount⟩ := refree_amount result
          have decremented := @deallocate_amount allocator
            (unitAt allocator.ptrs (blockInd, i))
          rw [if_neg unitNonzero] at decremented
          rw [List.length_append] at short
          exact ⟨count + 1, by omega, by omega, by omega⟩
        · rw [deallocate_eq unitNonzero small (by omega)] at result
          obtain ⟨count, short, enough, amount⟩ := @induction
            { allocator with
              memory := Function.update allocator.memory (unitAt allocator.ptrs (blockInd, i))
                allocator.freeList
              freeList := unitAt allocator.ptrs (blockInd, i)
              allocatedElementsAmount := allocator.allocatedElementsAmount - 1 }
            restWithin restNonzero nodup.2 (Nat.lt_of_le_of_lt (Nat.sub_le _ _) small)
            (by
              simp only
              omega)
            (by
              simp only
              rw [filter_update nodup.1]
              omega)
            result
          simp only at enough amount
          exact ⟨count + 1, by omega, by omega, by omega⟩
      · rw [if_neg isMarked] at result
        rw [List.filter_cons_of_neg (by simp [isMarked])] at more
        obtain ⟨count, short, enough, amount⟩ :=
          induction restWithin restNonzero nodup.2 small positive more result
        exact ⟨count, by omega, enough, amount⟩

end MallocSurvey.FsbAllocator2
