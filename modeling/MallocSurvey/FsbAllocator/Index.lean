import MallocSurvey.FsbAllocator.Steps

/-! # The index of the blocks with a free unit

The index is only touched when a block becomes full or was full. It stays the list of the
blocks that are not full, and every unit remembers the block it came from. -/

namespace MallocSurvey.FsbAllocator

open Library

variable {elemSize : Nat} {state next : State} {index : Nat} {memBlock newBlock : MemBlock}
  {newMemory : Words} {newLive : List (Nat × Nat)} {newFree : List Nat}

theorem mem_mine {live : List (Nat × Nat)} {unit : Nat} :
    unit ∈ mine live index ↔ (index, unit) ∈ live := by
  simp [mine]

/-- One block, the index and the live elements of the block change. -/
theorem Inv.update (inv : Inv elemSize state)
    (isBlock : state.allocator.blocksVector[index]? = some memBlock)
    (blockInv : BlockInv elemSize newMemory index newBlock (mine newLive index))
    (others : ∀ other ≠ index, mine newLive other = mine state.live other)
    (owned : ∀ element ∈ newLive, element.1 < state.allocator.blocksVector.length)
    (frame : ∀ other otherBlock, other ≠ index →
      state.allocator.blocksVector[other]? = some otherBlock → ∀ place,
        Holds elemSize otherBlock place → newMemory place = state.allocator.memory place)
    (apart : ∀ (other : Nat) (otherBlock : MemBlock), other ≠ index →
      state.allocator.blocksVector[other]? = some otherBlock →
      newBlock.block ≠ 0 → otherBlock.block ≠ 0 →
        Apart newBlock.block (blockSize elemSize) otherBlock.block (blockSize elemSize))
    (nodup : newFree.Nodup)
    (exact : ∀ other, other ∈ newFree ↔
      if other = index then newBlock.isFull = false
      else other ∈ state.allocator.blocksWithFree) :
    Inv elemSize
      ⟨⟨state.allocator.blocksVector.set index newBlock, newFree, newMemory⟩, newLive⟩ := by
  have bound : index < state.allocator.blocksVector.length :=
    (List.getElem?_eq_some_iff.mp isBlock).1
  have atIndex : (state.allocator.blocksVector.set index newBlock)[index]? = some newBlock :=
    List.getElem?_set_self bound
  have elsewhere : ∀ other ≠ index, (state.allocator.blocksVector.set index newBlock)[other]? =
      state.allocator.blocksVector[other]? :=
    fun other different => List.getElem?_set_ne different.symm
  refine ⟨?_, ?_, ?_, nodup, ?_⟩
  · intro other otherBlock isOther
    simp only at isOther ⊢
    by_cases same : other = index
    · rw [same] at isOther ⊢
      cases atIndex.symm.trans isOther
      exact blockInv
    · rw [elsewhere other same] at isOther
      rw [others other same]
      exact (inv.blocks other otherBlock isOther).congr fun place holds _ =>
        frame other otherBlock same isOther place holds
  · intro element member
    simp only
    rw [List.length_set]
    exact owned element member
  · intro left right leftBlock rightBlock different isLeft isRight leftNonzero rightNonzero
    simp only at isLeft isRight
    by_cases leftSame : left = index
    · rw [leftSame] at isLeft different
      cases atIndex.symm.trans isLeft
      rw [elsewhere right different.symm] at isRight
      exact apart right rightBlock different.symm isRight leftNonzero rightNonzero
    · rw [elsewhere left leftSame] at isLeft
      by_cases rightSame : right = index
      · rw [rightSame] at isRight
        cases atIndex.symm.trans isRight
        exact (apart left leftBlock leftSame isLeft rightNonzero leftNonzero).symm
      · rw [elsewhere right rightSame] at isRight
        exact inv.apart left right leftBlock rightBlock different isLeft isRight leftNonzero
          rightNonzero
  · intro other
    simp only
    rw [exact]
    by_cases same : other = index
    · rw [if_pos same, same, atIndex]
      simp
    · rw [if_neg same, elsewhere other same]
      exact inv.exact other

/-- A new empty block if all are full. -/
theorem inv_provide (inv : Inv elemSize state) (endIndex : Nat) :
    Inv elemSize ⟨state.allocator.provide endIndex, state.live⟩ ∧
      (state.allocator.provide endIndex).blocksWithFree ≠ [] := by
  unfold ElemAllocator.provide
  by_cases noneFree : state.allocator.blocksWithFree = []
  · rw [if_pos noneFree]
    have noneMine : mine state.live state.allocator.blocksVector.length = [] := by
      rw [mine, List.map_eq_nil_iff, List.filter_eq_nil_iff]
      intro element member isOwner
      have bound := inv.owned element member
      have isOwner := of_decide_eq_true isOwner
      omega
    have lookups : ∀ (other : Nat) (otherBlock : MemBlock),
        (state.allocator.blocksVector ++ [MemBlock.new endIndex])[other]? = some otherBlock →
        state.allocator.blocksVector[other]? = some otherBlock ∨
          other = state.allocator.blocksVector.length ∧ otherBlock = .new endIndex := by
      intro other otherBlock isOther
      by_cases bound : other < state.allocator.blocksVector.length
      · rw [List.getElem?_append_left bound] at isOther
        exact .inl isOther
      · rw [List.getElem?_append_right (Nat.le_of_not_lt bound)] at isOther
        obtain ⟨small, isNew⟩ := List.getElem?_eq_some_iff.mp isOther
        simp only [List.length_singleton] at small
        right
        refine ⟨by omega, ?_⟩
        rw [← isNew]
        simp
    refine ⟨⟨?_, ?_, ?_, List.nodup_singleton _, ?_⟩, List.cons_ne_nil _ _⟩
    · intro other otherBlock isOther
      rcases lookups other otherBlock isOther with isOld | ⟨isLast, isNew⟩
      · exact inv.blocks other otherBlock isOld
      · left
        simp only
        rw [isNew, isLast, noneMine]
        exact ⟨rfl, rfl, rfl, rfl⟩
    · intro element member
      have bound := inv.owned element member
      simp only [List.length_append, List.length_singleton]
      omega
    · intro left right leftBlock rightBlock different isLeft isRight leftNonzero rightNonzero
      rcases lookups left leftBlock isLeft with leftOld | ⟨_, leftNew⟩
      · rcases lookups right rightBlock isRight with rightOld | ⟨_, rightNew⟩
        · exact inv.apart left right leftBlock rightBlock different leftOld rightOld leftNonzero
            rightNonzero
        · exact absurd (congrArg MemBlock.block rightNew) rightNonzero
      · exact absurd (congrArg MemBlock.block leftNew) leftNonzero
    · intro other
      rw [List.mem_singleton]
      constructor
      · intro isLast
        refine ⟨.new endIndex, ?_, rfl⟩
        simp only
        rw [isLast, List.getElem?_append_right (Nat.le_refl _), Nat.sub_self]
        rfl
      · rintro ⟨otherBlock, isOther, notFull⟩
        rcases lookups other otherBlock isOther with isOld | ⟨isLast, _⟩
        · have isFree := (inv.exact other).mpr ⟨otherBlock, isOld, notFull⟩
          rw [noneFree] at isFree
          cases isFree
        · exact isLast
  · rw [if_neg noneFree]
    exact ⟨inv, noneFree⟩

theorem answers_provide {allocator : ElemAllocator} {answer : Nat} (endIndex : Nat)
    (answers : Answers elemSize allocator answer) :
    Answers elemSize (allocator.provide endIndex) answer := by
  unfold ElemAllocator.provide
  split
  · refine answers.imp id fun both => ⟨both.1, ?_⟩
    intro other member nonzero
    rcases List.mem_append.mp member with isOld | isNew
    · exact both.2 other isOld nonzero
    · rw [List.mem_singleton.mp isNew] at nonzero
      exact absurd rfl nonzero
  · exact answers

/-! ## The calls -/

theorem mine_cons (element : Nat × Nat) (live : List (Nat × Nat)) (index : Nat) :
    mine (element :: live) index =
      if element.1 = index then element.2 :: mine live index else mine live index := by
  unfold mine
  by_cases same : element.1 = index
  · simp [same]
  · simp [same]

theorem mine_eraseP {ptr : Nat} {live : List (Nat × Nat)}
    (owner : ∀ other, (other, ptr) ∈ live → other = index) (block : Nat) :
    mine (live.eraseP fun element => element.2 = ptr) block =
      if block = index then (mine live block).erase ptr else mine live block := by
  induction live with
  | nil => simp [mine]
  | cons element rest induction =>
      have restOwner : ∀ other, (other, ptr) ∈ rest → other = index :=
        fun other member => owner other (List.mem_cons_of_mem _ member)
      by_cases found : element.2 = ptr
      · have isOwner : element.1 = index := owner element.1 (found ▸ List.mem_cons_self)
        rw [List.eraseP_cons_of_pos (by simp [found]), mine_cons, isOwner]
        by_cases same : block = index
        · rw [if_pos same, if_pos same.symm, found, List.erase_cons_head]
        · rw [if_neg same, if_neg (Ne.symm same)]
      · rw [List.eraseP_cons_of_neg (by simp [found]), mine_cons, mine_cons, induction restOwner]
        by_cases same : block = index
        · rw [if_pos same, if_pos same]
          by_cases isMine : element.1 = block
          · rw [if_pos isMine, if_pos isMine, List.erase_cons_tail (by simpa using found)]
          · rw [if_neg isMine, if_neg isMine]
        · rw [if_neg same, if_neg same]

theorem Inv.holds (inv : Inv elemSize state) {unit : Nat} (member : (index, unit) ∈ state.live) :
    ∃ memBlock chain carved, state.allocator.blocksVector[index]? = some memBlock ∧
      Held elemSize state.allocator.memory index memBlock (mine state.live index) chain carved ∧
      unit ∈ mine state.live index := by
  have isMine := mem_mine.mpr member
  have bound := inv.owned _ member
  have isBlock := List.getElem?_eq_getElem bound
  rcases inv.blocks index _ isBlock with vacant | ⟨_, chain, carved, held⟩
  · rw [vacant.live] at isMine
    cases isMine
  · exact ⟨_, chain, carved, isBlock, held, isMine⟩

theorem Held.holds_unit {live chain : List Nat} {carved : Nat}
    (held : Held elemSize newMemory index memBlock live chain carved) {unit : Nat}
    (member : unit ∈ live) : Holds elemSize memBlock unit := by
  have bounds := unit_bounds (held.mem_units (.inr member)) held.bound
  have positive := unit_pos elemSize
  exact ⟨held.nonzero, bounds.1, by omega⟩

theorem Inv.owner_unique (inv : Inv elemSize state) {unit other : Nat}
    (member : (index, unit) ∈ state.live) (otherMem : (other, unit) ∈ state.live) :
    other = index := by
  obtain ⟨memBlock, chain, carved, isBlock, held, isMine⟩ := inv.holds member
  obtain ⟨otherBlock, _, _, isOther, otherHeld, otherMine⟩ := inv.holds otherMem
  by_contra different
  have apart := inv.apart other index otherBlock memBlock different isOther isBlock
    otherHeld.nonzero held.nonzero
  have holds := held.holds_unit isMine
  have otherHolds := otherHeld.holds_unit otherMine
  unfold Holds at holds otherHolds
  unfold Apart at apart
  omega

theorem holds_of_apart {place : Nat} (holds : Holds elemSize memBlock place)
    (apart : newBlock.block ≠ 0 → memBlock.block ≠ 0 →
      Apart newBlock.block (blockSize elemSize) memBlock.block (blockSize elemSize)) :
    ¬ Holds elemSize newBlock place := by
  intro newHolds
  have blocksApart := apart newHolds.1 holds.1
  unfold Holds at holds newHolds
  unfold Apart at blocksApart
  omega

/-- A call of `allocate`. The element is taken from a block with a free unit. -/
theorem inv_allocate (inv : Inv elemSize state) {answer : Nat} (endIndex : Nat)
    (answers : Answers elemSize state.allocator answer) :
    ∃ next, step elemSize state (.allocate answer endIndex) = some next ∧ Inv elemSize next ∧
      (next.live = state.live ∨ ∃ index unit, next.live = (index, unit) :: state.live) ∧
      (state.allocator.blocksWithFree ≠ [] →
        next.allocator.blocksVector.length = state.allocator.blocksVector.length) := by
  obtain ⟨provided, nonempty⟩ := inv_provide inv endIndex
  have provides := answers_provide endIndex answers
  have sameLength : state.allocator.blocksWithFree ≠ [] →
      (state.allocator.provide endIndex).blocksVector.length =
        state.allocator.blocksVector.length := by
    intro isFree
    rw [ElemAllocator.provide, if_neg isFree]
  obtain ⟨index, rest, isFree⟩ := List.exists_cons_of_ne_nil nonempty
  obtain ⟨memBlock, isBlock, notFull⟩ := (provided.exact index).mp (by
    simp only
    rw [isFree]
    exact List.mem_cons_self)
  simp only at isBlock
  have freeNodup := provided.nodup
  simp only [isFree, List.nodup_cons] at freeNodup
  have bound := (List.getElem?_eq_some_iff.mp isBlock).1
  obtain ⟨retval, newBlock, newMemory, result, outcome⟩ :=
    (provided.blocks index memBlock isBlock).allocate notFull (provides.imp id And.left)
  simp only at result
  obtain ⟨newFree, isNewFree⟩ : ∃ newFree, (if newBlock.isFull then rest else index :: rest) =
      newFree := ⟨_, rfl⟩
  have stepped : step elemSize state (.allocate answer endIndex) =
      if retval = 0 then some ⟨⟨(state.allocator.provide endIndex).blocksVector.set index newBlock,
        newFree, newMemory⟩, state.live⟩
      else some ⟨⟨(state.allocator.provide endIndex).blocksVector.set index newBlock,
        newFree, newMemory⟩, (index, retval) :: state.live⟩ := by
    simp only [step, ElemAllocator.allocate, isFree, List.head?_cons, Option.bind_eq_bind,
      Option.bind_some, isBlock, result, Option.pure_def, List.tail_cons, isNewFree]
  have freeSpec : newFree.Nodup ∧ ∀ other, other ∈ newFree ↔
      if other = index then newBlock.isFull = false
      else other ∈ (state.allocator.provide endIndex).blocksWithFree := by
    rw [← isNewFree, isFree]
    cases isFull : newBlock.isFull with
    | true =>
        rw [if_pos rfl]
        refine ⟨freeNodup.2, ?_⟩
        intro other
        by_cases same : other = index
        · rw [if_pos same, same]
          exact iff_of_false freeNodup.1 (by simp)
        · rw [if_neg same, List.mem_cons, or_iff_right same]
    | false =>
        rw [if_neg Bool.false_ne_true]
        refine ⟨List.nodup_cons.mpr freeNodup, ?_⟩
        intro other
        by_cases same : other = index
        · rw [if_pos same, same]
          exact iff_of_true List.mem_cons_self rfl
        · rw [if_neg same]
  rcases outcome with ⟨isNull, sameBlock, sameMemory, _⟩ | ⟨nonzero, blockInv, newNonzero, from_,
    frame⟩
  · rw [if_pos isNull] at stepped
    refine ⟨_, stepped, ?_, .inl rfl, ?_⟩
    · subst sameBlock sameMemory
      exact provided.update isBlock (provided.blocks index newBlock isBlock) (fun _ _ => rfl)
        provided.owned (fun _ _ _ _ _ _ => rfl)
        (fun other otherBlock different isOther leftNonzero rightNonzero =>
          provided.apart index other newBlock otherBlock different.symm isBlock isOther leftNonzero
            rightNonzero)
        freeSpec.1 freeSpec.2
    · intro isSome
      simp only
      rw [List.length_set, sameLength isSome]
  · rw [if_neg nonzero] at stepped
    have newApart : ∀ (other : Nat) (otherBlock : MemBlock), other ≠ index →
        (state.allocator.provide endIndex).blocksVector[other]? = some otherBlock →
        newBlock.block ≠ 0 → otherBlock.block ≠ 0 →
          Apart newBlock.block (blockSize elemSize) otherBlock.block (blockSize elemSize) := by
      intro other otherBlock different isOther _ otherNonzero
      rcases from_ with same | ⟨_, isAnswer⟩
      · rw [same]
        exact provided.apart index other memBlock otherBlock different.symm isBlock isOther
          (same ▸ newNonzero) otherNonzero
      · rw [isAnswer]
        rcases provides with isZero | ⟨_, fresh⟩
        · exact absurd (isAnswer.trans isZero) newNonzero
        · exact fresh otherBlock (List.mem_of_getElem? isOther) otherNonzero
    refine ⟨_, stepped, ?_, .inr ⟨index, retval, rfl⟩, ?_⟩
    · apply provided.update isBlock _ _ _ _ newApart freeSpec.1 freeSpec.2
      · rw [mine_cons, if_pos rfl]
        exact blockInv
      · intro other different
        rw [mine_cons, if_neg (Ne.symm different)]
      · intro element member
        rcases List.mem_cons.mp member with isNew | isOld
        · rw [isNew]
          exact bound
        · exact provided.owned element isOld
      · intro other otherBlock different isOther place holds
        exact frame place (holds_of_apart holds (newApart other otherBlock different isOther))
    · intro isSome
      simp only
      rw [List.length_set, sameLength isSome]

end MallocSurvey.FsbAllocator
