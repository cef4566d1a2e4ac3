import MallocSurvey.FsbAllocator.Index

/-! # The index over whole runs -/

namespace MallocSurvey.FsbAllocator

open Library

variable {elemSize : Nat} {state next : State} {index : Nat} {memBlock : MemBlock}

/-- Unless the block has been released, the unit is the next one that it hands out. -/
def Reuses (elemSize : Nat) (memBlock : MemBlock) (memory : Words) (unit : Nat) : Prop :=
  memBlock.block = 0 ∨
    ∀ vectorIndex answer, memBlock.allocate elemSize memory vectorIndex answer =
      (unit, (memBlock.reuse memory).2)

theorem reuses_deallocate {memory newMemory : Words} {unit : Nat} {newBlock : MemBlock}
    (result : memBlock.deallocate memory unit = (newBlock, newMemory))
    (inside : memBlock.block ≤ unit) (fits : unit < noUnit) :
    Reuses elemSize newBlock newMemory unit := by
  unfold MemBlock.deallocate at result
  dsimp only at result
  have isBlock := congrArg Prod.fst result
  simp only at isBlock
  rw [← isBlock]
  split
  · exact .inl rfl
  · right
    intro vectorIndex answer
    have some_ : unit - memBlock.block ≠ noUnit := by omega
    rw [MemBlock.allocate, if_neg some_, MemBlock.reuse]
    simp only [Nat.add_sub_cancel' inside]

/-- A call of `deallocate` on a live element, which goes back to its block. -/
theorem inv_deallocate (inv : Inv elemSize state) (word : 0 < elemSize) {unit : Nat}
    (member : (index, unit) ∈ state.live) :
    ∃ next, step elemSize state (.deallocate unit) = some next ∧ Inv elemSize next ∧
      next.live = state.live.eraseP (fun element => element.2 = unit) ∧
      ∃ newBlock, next.allocator.blocksVector[index]? = some newBlock ∧
        newBlock.isFull = false ∧ Reuses elemSize newBlock next.allocator.memory unit := by
  obtain ⟨memBlock, chain, carved, isBlock, held, isMine⟩ := inv.holds member
  have isUnit := held.mem_units (.inr isMine)
  have bounds := unit_bounds isUnit held.bound
  have fits := held.fits
  have nonzero : unit ≠ 0 := by
    have blockNonzero := held.nonzero
    omega
  have isIndex := held.index unit isUnit
  obtain ⟨newBlock, newMemory, result, blockInv, from_, notFull, holds, frame⟩ :=
    (inv.blocks index memBlock isBlock).deallocate isMine word
  obtain ⟨newFree, isNewFree⟩ : ∃ newFree,
      (if memBlock.isFull then index :: state.allocator.blocksWithFree
        else state.allocator.blocksWithFree) = newFree := ⟨_, rfl⟩
  have stepped : step elemSize state (.deallocate unit) =
      some ⟨⟨state.allocator.blocksVector.set index newBlock, newFree, newMemory⟩,
        state.live.eraseP fun element => element.2 = unit⟩ := by
    simp only [step, ElemAllocator.deallocate, if_neg nonzero, isIndex, isBlock, result,
      Option.bind_eq_bind, Option.bind_some, Option.pure_def, isNewFree]
  have owner : ∀ other, (other, unit) ∈ state.live → other = index :=
    fun other otherMem => inv.owner_unique member otherMem
  have atIndex : index ∈ state.allocator.blocksWithFree ↔ memBlock.isFull = false := by
    rw [inv.exact]
    constructor
    · rintro ⟨other, isOther, otherNotFull⟩
      cases isBlock.symm.trans isOther
      exact otherNotFull
    · exact fun isFree => ⟨memBlock, isBlock, isFree⟩
  have freeSpec : newFree.Nodup ∧ ∀ other, other ∈ newFree ↔
      if other = index then newBlock.isFull = false
      else other ∈ state.allocator.blocksWithFree := by
    rw [← isNewFree]
    cases isFull : memBlock.isFull with
    | true =>
        rw [isFull] at atIndex
        have notListed : index ∉ state.allocator.blocksWithFree := by simp [atIndex]
        rw [if_pos rfl]
        refine ⟨List.nodup_cons.mpr ⟨notListed, inv.nodup⟩, ?_⟩
        intro other
        by_cases same : other = index
        · rw [if_pos same, same]
          exact iff_of_true List.mem_cons_self notFull
        · rw [if_neg same, List.mem_cons, or_iff_right same]
    | false =>
        rw [if_neg Bool.false_ne_true]
        refine ⟨inv.nodup, ?_⟩
        intro other
        by_cases same : other = index
        · rw [if_pos same, same]
          exact iff_of_true (atIndex.mpr isFull) notFull
        · rw [if_neg same]
  have newApart : ∀ (other : Nat) (otherBlock : MemBlock), other ≠ index →
      state.allocator.blocksVector[other]? = some otherBlock →
      newBlock.block ≠ 0 → otherBlock.block ≠ 0 →
        Apart newBlock.block (blockSize elemSize) otherBlock.block (blockSize elemSize) := by
    intro other otherBlock different isOther newNonzero otherNonzero
    have same : newBlock.block = memBlock.block := from_.resolve_right newNonzero
    rw [same]
    exact inv.apart index other memBlock otherBlock different.symm isBlock isOther
      (same ▸ newNonzero) otherNonzero
  refine ⟨_, stepped, ?_, rfl, newBlock, ?_, notFull, ?_⟩
  rotate_left
  · exact List.getElem?_set_self (List.getElem?_eq_some_iff.mp isBlock).1
  · apply reuses_deallocate result bounds.1
    unfold noUnit
    omega
  apply inv.update isBlock _ _ _ _ newApart freeSpec.1 freeSpec.2
  · rw [mine_eraseP owner, if_pos rfl]
    exact blockInv
  · intro other different
    rw [mine_eraseP owner, if_neg different]
  · intro element elementMem
    exact inv.owned element (List.mem_of_mem_eraseP elementMem)
  · intro other otherBlock different isOther place otherHolds
    apply frame
    apply holds_of_apart otherHolds
    exact fun left right =>
      inv.apart index other memBlock otherBlock different.symm isBlock isOther left right

/-- The program writes to a live element or to memory that no block has. -/
theorem inv_write (inv : Inv elemSize state) {place : Nat} (value : Nat)
    (enabled : Enabled elemSize state (.write place value)) :
    Inv elemSize { state with allocator := { state.allocator with
      memory := Function.update state.allocator.memory place value } } := by
  refine ⟨?_, inv.owned, inv.apart, inv.nodup, inv.exact⟩
  intro index memBlock isBlock
  apply (inv.blocks index memBlock isBlock).congr
  intro other holds outside
  apply Function.update_of_ne
  intro isPlace
  subst isPlace
  rcases enabled with noBlock | ⟨element, isLive, after, before⟩
  · exact noBlock memBlock (List.mem_of_getElem? isBlock) holds
  · obtain ⟨elementBlock, chain, carved, isElementBlock, held, isMine⟩ := inv.holds isLive
    by_cases same : element.1 = index
    · have apart := outside element.2 (same ▸ isMine)
      omega
    · have blocksApart := inv.apart element.1 index elementBlock memBlock same isElementBlock
        isBlock held.nonzero holds.1
      have bounds := unit_bounds (held.mem_units (.inr isMine)) held.bound
      unfold unitSizeInDSize at bounds
      unfold Holds at holds
      unfold Apart at blocksApart
      omega

theorem inv_step (inv : Inv elemSize state) (word : 0 < elemSize) {event : Event}
    (enabled : Enabled elemSize state event) :
    ∃ next, step elemSize state event = some next ∧ Inv elemSize next := by
  cases event with
  | allocate answer endIndex =>
      obtain ⟨next, result, newInv, _⟩ := inv_allocate inv endIndex enabled
      exact ⟨next, result, newInv⟩
  | deallocate ptr =>
      rcases enabled with isNull | isLive
      · refine ⟨{ state with live := state.live.eraseP fun element => element.2 = ptr }, ?_, ?_⟩
        · simp only [step, ElemAllocator.deallocate, if_pos isNull, Option.bind_eq_bind,
            Option.bind_some, Option.pure_def]
        · have untouched : state.live.eraseP (fun element => element.2 = ptr) = state.live := by
            apply List.eraseP_of_forall_not
            intro element member isPtr
            obtain ⟨memBlock, chain, carved, _, held, isMine⟩ := inv.holds member
            have holds := held.holds_unit isMine
            have isPtr := of_decide_eq_true isPtr
            have nonzero := holds.1
            have below := holds.2.1
            omega
          rw [untouched]
          exact inv
      · obtain ⟨⟨index, unit⟩, member, isUnit⟩ := List.mem_map.mp isLive
        obtain ⟨next, result, newInv, _⟩ := inv_deallocate inv word member
        exact ⟨next, isUnit ▸ result, newInv⟩
  | write place value => exact ⟨_, rfl, inv_write inv value enabled⟩

theorem inv_reachable (word : 0 < elemSize)
    (reachable : (machine elemSize).Reachable (fun _ _ => True) state) : Inv elemSize state := by
  apply reachable.invariant (fun _ => inv_init)
  intro state event next inv enabled _ result
  obtain ⟨other, isOther, newInv⟩ := inv_step inv word enabled
  cases result.symm.trans isOther
  exact newInv

/-! ## What the index says -/

structure Exact (elemSize : Nat) (state : State) : Prop where
  nodup : state.allocator.blocksWithFree.Nodup
  exact : ∀ index, index ∈ state.allocator.blocksWithFree ↔
    index < state.allocator.blocksVector.length ∧ (mine state.live index).length < blockElements
  leads : ∀ element ∈ state.live,
    state.allocator.memory (element.2 + elemSizeInDSize elemSize) = element.1 ∧
      ∃ memBlock, state.allocator.blocksVector[element.1]? = some memBlock ∧
        Holds elemSize memBlock element.2
  apart : state.live.Pairwise fun left right =>
    Apart left.2 (unitSizeInDSize elemSize) right.2 (unitSizeInDSize elemSize)
  /-- The units of a block up to `endIndex` are live or linked to be handed out again. -/
  reusable : ∀ (index : Nat) (memBlock : MemBlock),
    state.allocator.blocksVector[index]? = some memBlock → memBlock.block ≠ 0 →
    ∃ chain carved,
      Links state.allocator.memory memBlock.block memBlock.firstFreeUnitIndex chain ∧
      (chain ++ mine state.live index).Perm
        (run memBlock.block carved (unitSizeInDSize elemSize)) ∧
      memBlock.endIndex = carved * unitSizeInDSize elemSize ∧ carved ≤ blockElements

theorem BlockInv.isFull_iff {memory : Words} {live : List Nat}
    (inv : BlockInv elemSize memory index memBlock live) :
    memBlock.isFull = false ↔ live.length < blockElements := by
  have atMost : live.length ≤ blockElements := by
    rcases inv with vacant | ⟨_, chain, carved, held⟩
    · rw [vacant.live]
      exact Nat.zero_le _
    · have length := held.length
      have bound := held.bound
      omega
  unfold MemBlock.isFull
  rw [decide_eq_false_iff_not, inv.amount]
  omega

theorem Inv.units_apart (inv : Inv elemSize state) {left right : Nat × Nat}
    (leftMem : left ∈ state.live) (rightMem : right ∈ state.live)
    (different : left.2 ≠ right.2) :
    Apart left.2 (unitSizeInDSize elemSize) right.2 (unitSizeInDSize elemSize) := by
  obtain ⟨leftBlock, _, _, isLeft, leftHeld, leftMine⟩ := inv.holds leftMem
  obtain ⟨rightBlock, _, _, isRight, rightHeld, rightMine⟩ := inv.holds rightMem
  have leftUnit := leftHeld.mem_units (.inr leftMine)
  have rightUnit := rightHeld.mem_units (.inr rightMine)
  by_cases same : left.1 = right.1
  · rw [same] at isLeft leftHeld leftMine
    cases isLeft.symm.trans isRight
    have isRun := leftHeld.mem_units (.inr rightMine)
    exact FsbAllocator.units_apart leftUnit isRun different
  · have apart := inv.apart left.1 right.1 leftBlock rightBlock same isLeft isRight
      leftHeld.nonzero rightHeld.nonzero
    have leftBounds := unit_bounds leftUnit leftHeld.bound
    have rightBounds := unit_bounds rightUnit rightHeld.bound
    unfold Apart at apart ⊢
    omega

theorem nodup_of_mine {live : List (Nat × Nat)} (each : ∀ index, (mine live index).Nodup) :
    live.Nodup := by
  induction live with
  | nil => exact List.nodup_nil
  | cons element rest induction =>
      rw [List.nodup_cons]
      constructor
      · intro member
        have atOwner := each element.1
        rw [mine_cons, if_pos rfl, List.nodup_cons] at atOwner
        exact atOwner.1 (mem_mine.mpr member)
      · apply induction
        intro index
        have atIndex := each index
        rw [mine_cons] at atIndex
        split at atIndex
        · exact atIndex.of_cons
        · exact atIndex

theorem Inv.live_nodup (inv : Inv elemSize state) : state.live.Nodup := by
  apply nodup_of_mine
  intro index
  by_cases bound : index < state.allocator.blocksVector.length
  · rcases inv.blocks index _ (List.getElem?_eq_getElem bound) with vacant | ⟨_, _, _, held⟩
    · rw [vacant.live]
      exact List.nodup_nil
    · exact (List.nodup_append.mp held.nodup).2.1
  · have noneMine : mine state.live index = [] := by
      rw [List.eq_nil_iff_forall_not_mem]
      intro unit member
      exact bound (inv.owned _ (mem_mine.mp member))
    rw [noneMine]
    exact List.nodup_nil

theorem eraseP_eq_erase {element : Nat × Nat} {live : List (Nat × Nat)}
    (only : ∀ other ∈ live, other.2 = element.2 → other = element) :
    live.eraseP (fun other => other.2 = element.2) = live.erase element := by
  induction live with
  | nil => rfl
  | cons first rest induction =>
      by_cases found : first.2 = element.2
      · rw [List.eraseP_cons_of_pos (by simp [found]), only first List.mem_cons_self found,
          List.erase_cons_head]
      · have different : first ≠ element := fun equal => found (congrArg Prod.snd equal)
        rw [List.eraseP_cons_of_neg (by simp [found]),
          List.erase_cons_tail (by simp [different]),
          induction fun other member => only other (List.mem_cons_of_mem _ member)]

theorem Inv.isExact (inv : Inv elemSize state) : Exact elemSize state := by
  refine ⟨inv.nodup, ?_, ?_, ?_, ?_⟩
  · intro index
    rw [inv.exact]
    constructor
    · rintro ⟨memBlock, isBlock, notFull⟩
      exact ⟨(List.getElem?_eq_some_iff.mp isBlock).1,
        (inv.blocks index memBlock isBlock).isFull_iff.mp notFull⟩
    · rintro ⟨bound, fewer⟩
      have isBlock := List.getElem?_eq_getElem bound
      exact ⟨_, isBlock, (inv.blocks index _ isBlock).isFull_iff.mpr fewer⟩
  · intro element member
    obtain ⟨memBlock, chain, carved, isBlock, held, isMine⟩ := inv.holds member
    exact ⟨held.index _ (held.mem_units (.inr isMine)), memBlock, isBlock, held.holds_unit isMine⟩
  · apply inv.live_nodup.pairwise_of_forall_ne
    intro left leftMem right rightMem different
    apply inv.units_apart leftMem rightMem
    intro same
    apply different
    have rightMem : (right.1, left.2) ∈ state.live := same ▸ rightMem
    exact Prod.ext (inv.owner_unique rightMem leftMem) same
  · intro index memBlock isBlock nonzero
    rcases inv.blocks index memBlock isBlock with vacant | ⟨_, chain, carved, held⟩
    · exact absurd vacant.block nonzero
    · exact ⟨chain, carved, held.linked, held.units, held.endIndex, held.bound⟩

end MallocSurvey.FsbAllocator
