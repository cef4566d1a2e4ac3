import MallocSurvey.Tav.Starting

/-! # Blocks come back -/

namespace MallocSurvey.Tav

open Library

variable {platform : Platform} {allocator new : Allocator} {mb index carved : Nat}
  {live chain : List Nat} {state next : State} {lists newLists : Place → List Nat} {block : Block}

/-! ## Which block is meant -/

theorem headers_nodup_of_mine {blocks : List Block} (each : ∀ mb, (mine blocks mb).Nodup)
    (named : ∀ left ∈ blocks, ∀ right ∈ blocks, left.header = right.header →
      left.megaBlock = right.megaBlock) : (blocks.map Block.header).Nodup := by
  induction blocks with
  | nil => exact List.nodup_nil
  | cons first rest induction =>
      rw [List.map_cons, List.nodup_cons]
      constructor
      · intro member
        obtain ⟨other, isRest, same⟩ := List.mem_map.mp member
        have sameOwner := named other (List.mem_cons_of_mem _ isRest) first List.mem_cons_self same
        have atOwner := each first.megaBlock
        rw [mine_cons, if_pos rfl, List.nodup_cons] at atOwner
        exact atOwner.1 (mem_mine.mpr ⟨other, isRest, sameOwner, same⟩)
      · apply induction
        · intro mb
          have atOwner := each mb
          rw [mine_cons] at atOwner
          split at atOwner
          · exact atOwner.of_cons
          · exact atOwner
        · intro left isLeft right isRight
          exact named left (List.mem_cons_of_mem _ isLeft) right (List.mem_cons_of_mem _ isRight)

theorem Inv.mine_nodup (inv : Inv platform state lists) (mb : Nat) :
    (mine state.live mb).Nodup := by
  by_cases isSystem : mb = 0
  · subst isSystem
    have apart := (List.pairwise_append.mp inv.apart).2.1
    rw [List.pairwise_map] at apart
    apply List.pairwise_map.mpr
    apply apart.imp
    intro left right apart equal
    unfold sysExtent Extent.Apart Library.Apart at apart
    have positive : 0 < blockHeaderSize := by decide
    dsimp only at apart
    omega
  · by_cases someLive : mine state.live mb = []
    · rw [someLive]
      exact List.nodup_nil
    · obtain ⟨header, member⟩ := List.exists_mem_of_ne_nil _ someLive
      obtain ⟨block, isLive, isOwner, _⟩ := mem_mine.mp member
      obtain ⟨_, _, inUse, _⟩ := inv.inUse isLive (isOwner ▸ isSystem)
      exact isOwner ▸ (List.nodup_append.mp inUse.nodup).2.1

theorem Inv.headers_nodup (inv : Inv platform state lists) :
    (state.live.map Block.header).Nodup := by
  apply headers_nodup_of_mine inv.mine_nodup
  intro left isLeft right isRight same
  rw [← inv.header left isLeft, ← inv.header right isRight, same]

/-- The address leads to the one block that starts there. -/
theorem eraseP_eq_erase {blocks : List Block} (nodup : (blocks.map Block.header).Nodup)
    (member : block ∈ blocks) :
    blocks.eraseP (fun other => other.ptr = block.ptr) = blocks.erase block := by
  induction blocks with
  | nil => rfl
  | cons first rest induction =>
      rw [List.map_cons, List.nodup_cons] at nodup
      by_cases same : first = block
      · rw [same, List.eraseP_cons_of_pos (by simp), List.erase_cons_head]
      · have isRest := (List.mem_cons.mp member).resolve_left (Ne.symm same)
        have different : first.ptr ≠ block.ptr := by
          intro equal
          have sameHeader : first.header = block.header := Nat.add_right_cancel equal
          exact nodup.1 (sameHeader ▸ List.mem_map_of_mem isRest)
        rw [List.eraseP_cons_of_neg (by simpa using different),
          List.erase_cons_tail (by simpa using same), induction nodup.2 isRest]

theorem mine_erase {blocks : List Block} (nodup : (blocks.map Block.header).Nodup)
    (member : block ∈ blocks) (mb : Nat) :
    mine (blocks.erase block) mb = if block.megaBlock = mb then (mine blocks mb).erase block.header
      else mine blocks mb := by
  induction blocks with
  | nil => cases member
  | cons first rest induction =>
      rw [List.map_cons, List.nodup_cons] at nodup
      by_cases same : first = block
      · rw [same, List.erase_cons_head, mine_cons]
        split
        · rw [List.erase_cons_head]
        · rfl
      · have isRest := (List.mem_cons.mp member).resolve_left (Ne.symm same)
        have different : first.header ≠ block.header :=
          fun equal => nodup.1 (equal ▸ List.mem_map_of_mem isRest)
        rw [List.erase_cons_tail (by simpa using same), mine_cons, mine_cons,
          induction nodup.2 isRest]
        split
        · split
          · rw [List.erase_cons_tail (by simpa using different)]
          · rfl
        · rfl

theorem regions_erase (newAllocator : Allocator) :
    (regions ⟨newAllocator, state.megaBlocks, state.live.erase block⟩).Sublist (regions state) :=
  List.Sublist.append_left ((List.erase_sublist.filter _).map _) _

/-! ## Blocks of a megablock -/

/-- A block of a megablock is no longer live. -/
theorem Inv.handIn (inv : Inv platform state lists) (member : block ∈ state.live)
    (isOwner : block.megaBlock = mb) (nonzero : mb ≠ 0) (shelved : Shelved new newLists)
    (others : ∀ other, other ≠ mb → ∀ place, other ∈ newLists place ↔ other ∈ lists place)
    (listed : ∃ place, mb ∈ newLists place)
    (alike : ∀ other ∈ state.megaBlocks, other ≠ mb →
      Alike state.allocator new (mine state.live other) other)
    (standing : ∀ place, mb ∈ newLists place →
      Standing platform new ((mine state.live mb).erase block.header) mb place)
    (just : new.context.justAllocated = state.allocator.context.justAllocated)
    (carving : ∀ index, state.allocator.context.justAllocated index = mb →
      ∃ place, place ≠ .free ∧ mb ∈ newLists place)
    (sameIndex : new.heap.index = state.allocator.heap.index)
    (sameHeader : new.heap.megaBlock = state.allocator.heap.megaBlock) :
    Inv platform ⟨new, state.megaBlocks, state.live.erase block⟩ newLists := by
  have isMine := mine_erase inv.headers_nodup member
  have isKnown := (inv.owned block member (isOwner ▸ nonzero)).1
  apply @Inv.update platform mb state ⟨new, state.megaBlocks, state.live.erase block⟩ lists newLists
    inv shelved others listed (fun _ _ => Iff.rfl) (isOwner ▸ isKnown) alike
  · intro other different
    exact (isMine other).trans (if_neg (isOwner ▸ different.symm))
  · intro place onPlace
    rw [isMine, if_pos isOwner]
    exact standing place onPlace
  · intro index isCarving
    rw [just] at isCarving
    rw [sameIndex]
    obtain ⟨_, _, _, wasIndex⟩ := inv.carving index (isCarving ▸ nonzero)
    exact ⟨carving index isCarving, isCarving ▸ wasIndex⟩
  · exact fun index _ => .inr (congrFun just index)
  · exact fun other isLive _ => List.mem_of_mem_erase isLive
  · exact fun other _ _ => congrFun sameHeader other.header
  · intro other isLive isOther
    have wasLive := List.mem_of_mem_erase isLive
    obtain ⟨_, small, isClass⟩ := inv.owned other wasLive (isOther ▸ nonzero)
    have wasHeader := inv.header other wasLive
    rw [isOther] at isClass wasHeader
    rw [sameIndex, sameHeader]
    exact ⟨small, isClass, wasHeader⟩
  · exact inv.apart.sublist (regions_erase new)

/-- The megablock with one block fewer, still on its old list. -/
def returned (allocator : Allocator) (mb : Nat) : Allocator :=
  { allocator with heap :=
    allocator.heap.setNumOfAllocatedBlocks mb (allocator.heap.numOfAllocatedBlocks mb - 1) }

theorem mbFree_small (isSmall : allocator.heap.megaBlock block.header ≠ 0) :
    allocator.mbFree platform block.ptr =
      if allocator.heap.numOfAllocatedBlocks (allocator.heap.megaBlock block.header) - 1 > 0 then
        (returned allocator (allocator.heap.megaBlock block.header)).giveBack
          (allocator.heap.megaBlock block.header) block.header
      else (returned allocator (allocator.heap.megaBlock block.header)).recycle
        (allocator.heap.megaBlock block.header) := by
  have isHeader : block.ptr - blockHeaderSize = block.header := Nat.add_sub_cancel ..
  unfold Allocator.mbFree
  dsimp only
  rw [isHeader, if_pos isSmall]
  rfl

/-- The last steps of `giveBack`. -/
def chained (allocator : Allocator) (mb header : Nat) : Allocator :=
  { allocator with heap := (allocator.heap.setNextFreeBlock header
    (allocator.heap.firstBlock mb)).setFirstBlock mb header }

theorem giveBack_inUse {header : Nat} {middle : Allocator}
    (inUse : InUse platform allocator mb index live chain carved) (member : header ∈ live)
    (same : SameBlocks (returned allocator mb) middle) :
    InUse platform (chained middle mb header) mb index (live.erase header) (header :: chain)
      carved := by
  have isSlot := inUse.mem_slots (.inr member)
  have holds := inUse.holds isSlot
  have length := List.length_erase_of_mem member
  have positive := List.length_pos_of_mem member
  apply inUse.change
  · exact same.index
  · exact Function.update_self ..
  · refine ⟨?_, ?_, ?_⟩
    · have headerPos : 0 < megaBlockHeaderSize := by decide
      unfold Holds at holds
      omega
    · have isFirst : middle.heap.firstBlock mb = chain.headD 0 :=
        (congrFun same.firstBlock mb).trans inUse.first
      exact (Function.update_self ..).trans isFirst
    · apply inUse.linked.congr
      intro other isFree
      have different : other ≠ header := by
        intro equal
        exact (List.nodup_append.mp inUse.nodup).2.2 other isFree header member equal
      exact (Function.update_of_ne different _ _).trans (congrFun same.nextFreeBlock other)
  · exact List.perm_middle.symm.trans ((List.perm_cons_erase member).symm.append_left chain)
  · exact same.megaBlock
  · have counted : (chained middle mb header).heap.numOfAllocatedBlocks mb =
        allocator.heap.numOfAllocatedBlocks mb - 1 :=
      (congrFun same.numOfAllocatedBlocks mb).trans (Function.update_self ..)
    rw [counted]
    omega
  · exact same.justAllocated
  · exact same.blocksLeft
  · exact same.nextCarved

theorem returned_alike {other : Nat} (different : other ≠ mb) :
    Alike allocator (returned allocator mb) live other where
  firstBlock := rfl
  index := rfl
  numOfAllocatedBlocks := Function.update_of_ne different _ _
  nextFreeBlock _ _ _ := rfl
  megaBlock _ _ := rfl
  justAllocated _ := Iff.rfl
  rest _ _ := ⟨rfl, rfl⟩

theorem chained_alike {other header : Nat} (different : other ≠ mb)
    (outside : ¬ Holds other header) : Alike allocator (chained allocator mb header) live other where
  firstBlock := Function.update_of_ne different _ _
  index := rfl
  numOfAllocatedBlocks := rfl
  nextFreeBlock block holds _ := by
    apply Function.update_of_ne
    intro equal
    exact outside (equal ▸ holds)
  megaBlock _ _ := rfl
  justAllocated _ := Iff.rfl
  rest _ _ := ⟨rfl, rfl⟩

/-- A block goes to the chain of its megablock, which has others in use. -/
theorem inv_giveBack (inv : Inv platform state lists) (member : block ∈ state.live)
    (isOwner : block.megaBlock = mb) (nonzero : mb ≠ 0)
    (inOthers : 0 < state.allocator.heap.numOfAllocatedBlocks mb - 1) :
    ∃ newLists, Inv platform ⟨(returned state.allocator mb).giveBack mb block.header,
      state.megaBlocks, state.live.erase block⟩ newLists := by
  obtain ⟨chain, carved, inUse, isMine, onList⟩ := inv.inUse member (isOwner ▸ nonzero)
  have isKnown := (inv.owned block member (isOwner ▸ nonzero)).1
  rw [isOwner] at inUse isMine onList isKnown
  have holds := inUse.holds (inUse.mem_slots (.inr isMine))
  have backShelved : Shelved (returned state.allocator mb) lists :=
    inv.shelved.congr (fun _ => rfl) rfl rfl
  -- a filled megablock becomes a partly free one
  obtain ⟨middle, isMiddle, same, newLists, shelved, others, onPartly, only⟩ :
      ∃ middle, (returned state.allocator mb).giveBack mb block.header =
          chained middle mb block.header ∧
        SameBlocks (returned state.allocator mb) middle ∧
        ∃ newLists, Shelved middle newLists ∧
          (∀ other, other ≠ mb → ∀ place, other ∈ newLists place ↔ other ∈ lists place) ∧
          mb ∈ newLists (.partly (classOf platform block.size)) ∧
          ∀ place, mb ∈ newLists place → place = .partly (classOf platform block.size) := by
    have isGiveBack : (returned state.allocator mb).giveBack mb block.header =
        chained (if state.allocator.heap.firstBlock mb = 0 then
          ((returned state.allocator mb).unlink .filled mb).linkInFront
            (.partly (state.allocator.heap.index mb)) mb
          else returned state.allocator mb) mb block.header := rfl
    rw [isGiveBack, inUse.first, inUse.isIndex]
    rcases onList with ⟨isFilled, isEmpty⟩ | ⟨isPartly, someFree, _⟩
    · rw [isEmpty, if_pos List.headD_nil]
      refine ⟨_, rfl, (Allocator.unlink_same _ .filled mb nonzero).trans
        (Allocator.linkInFront_same _ _ mb), moved lists .filled _ mb,
        backShelved.move (by simp) (by simp) isFilled, ?_, ?_, ?_⟩
      · exact fun other different place => mem_moved different
      · exact (moved_self inv.shelved isFilled).mpr rfl
      · exact fun place onPlace => (moved_self inv.shelved isFilled).mp onPlace
    · obtain ⟨first, rest, isChain⟩ := List.exists_cons_of_ne_nil someFree
      subst isChain
      have notZero : (first :: rest).headD 0 ≠ 0 := inUse.linked.1
      rw [if_neg notZero]
      refine ⟨_, rfl, ⟨rfl, rfl, rfl, rfl, rfl, rfl, rfl, rfl⟩, lists, backShelved,
        fun _ _ _ => Iff.rfl, isPartly, ?_⟩
      exact fun place onPlace => inv.shelved.disjoint _ _ mb onPlace isPartly
  have newUse := giveBack_inUse inUse isMine same
  rw [isMiddle]
  refine ⟨newLists, inv.handIn member isOwner nonzero (shelved.congr (fun _ => rfl) rfl rfl) others
    ⟨_, onPartly⟩ ?_ ?_ same.justAllocated ?_ same.index same.megaBlock⟩
  · intro other otherKnown different
    have outside := not_holds_of_apart (inv.mega_apart isKnown otherKnown different.symm) holds
    exact ((returned_alike different).trans (.of_same same)).trans
      (chained_alike different outside)
  · intro place onPlace
    rw [only place onPlace]
    refine ⟨_, _, List.cons_ne_nil _ _, newUse, ?_⟩
    have counted : (chained middle mb block.header).heap.numOfAllocatedBlocks mb =
        state.allocator.heap.numOfAllocatedBlocks mb - 1 :=
      (congrFun same.numOfAllocatedBlocks mb).trans (Function.update_self ..)
    rw [counted]
    exact inOthers
  · exact fun _ _ => ⟨_, by simp, onPartly⟩

/-- The last block in use comes back, and the megablock goes to the free list. -/
theorem inv_recycle (inv : Inv platform state lists) (member : block ∈ state.live)
    (isOwner : block.megaBlock = mb) (nonzero : mb ≠ 0)
    (isLast : ¬ 0 < state.allocator.heap.numOfAllocatedBlocks mb - 1) :
    ∃ newLists, Inv platform ⟨(returned state.allocator mb).recycle mb,
      state.megaBlocks, state.live.erase block⟩ newLists := by
  obtain ⟨chain, carved, inUse, isMine, onList⟩ := inv.inUse member (isOwner ▸ nonzero)
  have isKnown := (inv.owned block member (isOwner ▸ nonzero)).1
  rw [isOwner] at inUse isMine onList isKnown
  have counted := inUse.counted
  have bound := inUse.bound
  have length := inUse.length
  have positive := List.length_pos_of_mem isMine
  have counts := blockCount_bounds platform inUse.low inUse.high
  have isPartly : mb ∈ lists (.partly (classOf platform block.size)) := by
    rcases onList with ⟨_, isEmpty⟩ | ⟨isPartly, _⟩
    · rw [isEmpty, List.length_nil] at length
      omega
    · exact isPartly
  have isOnly : (mine state.live mb).erase block.header = [] := by
    rw [← List.length_eq_zero_iff, List.length_erase_of_mem isMine]
    omega
  have notCarving : state.allocator.context.justAllocated (classOf platform block.size) ≠ mb := by
    intro isCarving
    have below := (inUse.rest isCarving).1
    omega
  have backShelved : Shelved (returned state.allocator mb) lists :=
    inv.shelved.congr (fun _ => rfl) rfl rfl
  have fresh := backShelved.unlink_fresh isPartly
  have shelved := (backShelved.unlink (by simp) isPartly).pushFree fresh nonzero
  have same := Allocator.unlink_same (returned state.allocator mb)
    (.partly (classOf platform block.size)) mb nonzero
  have isRecycle : (returned state.allocator mb).recycle mb =
      ⟨((returned state.allocator mb).unlink (.partly (classOf platform block.size)) mb).heap.setNext
        mb ((returned state.allocator mb).unlink (.partly (classOf platform block.size))
          mb).context.freeMegaBlock,
      { ((returned state.allocator mb).unlink (.partly (classOf platform block.size))
          mb).context with freeMegaBlock := mb }⟩ := by
    rw [← inUse.isIndex]
    rfl
  rw [isRecycle]
  refine ⟨moved lists (.partly (classOf platform block.size)) .free mb,
    inv.handIn member isOwner nonzero shelved (fun _ different _ => mem_moved different)
      ⟨.free, (moved_self inv.shelved isPartly).mpr rfl⟩ ?_ ?_ same.justAllocated ?_ same.index
      same.megaBlock⟩
  · intro other otherKnown different
    refine ((returned_alike different).trans (.of_same same)).trans ?_
    exact ⟨rfl, rfl, rfl, fun _ _ _ => rfl, fun _ _ => rfl, fun _ => Iff.rfl, fun _ _ => ⟨rfl, rfl⟩⟩
  · intro place onPlace
    rw [(moved_self inv.shelved isPartly).mp onPlace]
    refine ⟨isOnly, (congrFun same.numOfAllocatedBlocks mb).trans ?_⟩
    have counted : (returned state.allocator mb).heap.numOfAllocatedBlocks mb =
        state.allocator.heap.numOfAllocatedBlocks mb - 1 := Function.update_self ..
    omega
  · intro index isCarving
    obtain ⟨_, _, _, isIndex⟩ := inv.carving index (isCarving ▸ nonzero)
    rw [isCarving, inUse.isIndex] at isIndex
    exact absurd (isIndex ▸ isCarving) notCarving

/-! ## The events -/

theorem inv_free (inv : Inv platform state lists) (member : block ∈ state.live) :
    ∃ newLists, Inv platform ⟨state.allocator.mbFree platform block.ptr, state.megaBlocks,
      state.live.erase block⟩ newLists := by
  have isHeader := inv.header block member
  by_cases isSystem : block.megaBlock = 0
  · have isPtr : block.ptr - blockHeaderSize = block.header := Nat.add_sub_cancel ..
    have notMega : ¬ state.allocator.heap.megaBlock (block.ptr - blockHeaderSize) ≠ 0 := by
      rw [isPtr, isHeader]
      exact not_not.mpr isSystem
    have isFree : state.allocator.mbFree platform block.ptr =
        { state.allocator with context := { state.allocator.context with
          sysAllocatedBlocks := state.allocator.context.sysAllocatedBlocks - 1
          sysAllocatedBlocksSize := state.allocator.context.sysAllocatedBlocksSize -
            Allocator.mbMemSize platform state.allocator.heap block.ptr } } := if_neg notMega
    rw [isFree]
    refine ⟨lists, inv.outside ?_ ?_ rfl ?_ ?_ ?_ (inv.apart.sublist (regions_erase _))⟩
    · apply inv.shelved.congr
      · intro place
        cases place with
        | free => rfl
        | filled => rfl
        | partly _ => rfl
      · rfl
      · rfl
    · intro mb _
      exact ⟨rfl, rfl, rfl, fun _ _ _ => rfl, fun _ _ => rfl, fun _ => Iff.rfl,
        fun _ _ => ⟨rfl, rfl⟩⟩
    · intro mb nonzero
      rw [mine_erase inv.headers_nodup member, if_neg (isSystem ▸ nonzero.symm)]
    · exact fun other isLive _ => List.mem_of_mem_erase isLive
    · intro other isLive otherSystem
      have wasLive := List.mem_of_mem_erase isLive
      exact ⟨inv.system other wasLive otherSystem,
        (inv.header other wasLive).trans otherSystem⟩
  · rw [mbFree_small (isHeader ▸ isSystem), isHeader]
    split
    · next inOthers => exact inv_giveBack inv member rfl isSystem inOthers
    · next isLast => exact inv_recycle inv member rfl isSystem isLast

/-- The program writes to a live block. -/
theorem inv_write (inv : Inv platform state lists) (member : block ∈ state.live) (value : Nat) :
    Inv platform { state with allocator := { state.allocator with
      heap := state.allocator.heap.setNextFreeBlock (block.ptr - blockHeaderSize) value } }
        lists := by
  have isPtr : block.ptr - blockHeaderSize = block.header := Nat.add_sub_cancel ..
  rw [isPtr]
  apply inv.outside
  · exact inv.shelved.congr (fun _ => rfl) rfl rfl
  · intro mb isKnown
    refine ⟨rfl, rfl, rfl, ?_, fun _ _ => rfl, fun _ => Iff.rfl, fun _ _ => ⟨rfl, rfl⟩⟩
    intro other holds notLive
    apply Function.update_of_ne
    intro isWritten
    rw [isWritten] at holds notLive
    by_cases isSystem : block.megaBlock = 0
    · exact inv.sys_not_holds member isSystem isKnown holds
    · obtain ⟨_, _, inUse, isMine, _⟩ := inv.inUse member isSystem
      have blockHolds := inUse.holds (inUse.mem_slots (.inr isMine))
      have ownerKnown := (inv.owned block member isSystem).1
      by_cases same : block.megaBlock = mb
      · exact notLive (same ▸ isMine)
      · exact not_holds_of_apart (inv.mega_apart ownerKnown isKnown same) blockHolds holds
  · rfl
  · exact fun _ _ => rfl
  · exact fun _ isLive _ => isLive
  · intro other isLive isSystem
    exact ⟨inv.system other isLive isSystem, (inv.header other isLive).trans isSystem⟩
  · exact inv.apart

/-- Without memory from the system a call that asks for some faults. -/
theorem step_alloc_null {size length : Nat}
    (isRequest : state.allocator.sysRequest platform size = some length) :
    step platform state (.alloc size 0) = none := by
  have faults : state.allocator.mbAlloc platform size 0 = none := by
    by_cases small : size ≤ maxBlockSize - blockHeaderSize
    · rw [sysRequest_small _ small] at isRequest
      rw [mbAlloc_small _ small]
      split at isRequest
      · cases isRequest
      · next noneLeft =>
          rw [not_or, not_or] at noneLeft
          rw [if_neg noneLeft.1, if_neg noneLeft.2.1, if_neg noneLeft.2.2, if_pos rfl]
    · unfold Allocator.mbAlloc
      rw [if_pos (by omega), if_pos rfl]
  simp only [step, faults, Option.bind_eq_bind, Option.bind_none]

theorem inv_step (inv : Inv platform state lists) {event : Event}
    (enabled : Enabled platform state event)
    (result : step platform state event = some next) :
    ∃ newLists, Inv platform next newLists := by
  cases event with
  | alloc size answer =>
      have answers : state.allocator.sysRequest platform size = none ∨ answer ≠ 0 := by
        by_contra neither
        rw [not_or, not_not] at neither
        obtain ⟨length, isRequest⟩ := Option.ne_none_iff_exists'.mp neither.1
        rw [neither.2, step_alloc_null isRequest] at result
        cases result
      obtain ⟨other, isOther, _, newInv⟩ := inv_alloc inv enabled answers
      cases result.symm.trans isOther
      exact newInv
  | free ptr =>
      obtain ⟨block, member, isPtr⟩ := enabled
      subst isPtr
      have isNext : (⟨state.allocator.mbFree platform block.ptr, state.megaBlocks,
          state.live.eraseP fun other => other.ptr = block.ptr⟩ : State) = next :=
        Option.some.inj result
      rw [← isNext, eraseP_eq_erase inv.headers_nodup member]
      exact inv_free inv member
  | write ptr value =>
      obtain ⟨block, member, isPtr⟩ := enabled
      subst isPtr
      cases result
      exact ⟨lists, inv_write inv member value⟩

theorem inv_reachable (reachable : (machine platform).Reachable (fun _ _ => True) state) :
    ∃ lists, Inv platform state lists := by
  apply reachable.invariant fun start init => ⟨_, inv_init init⟩
  intro start event next inv enabled _ result
  obtain ⟨lists, inv⟩ := inv
  exact inv_step inv enabled result

end MallocSurvey.Tav
