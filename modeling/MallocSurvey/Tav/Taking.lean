import MallocSurvey.Tav.Frames

/-! # Blocks are handed out -/

namespace MallocSurvey.Tav

open Library

variable {platform : Platform} {allocator old new : Allocator} {mb index carved size : Nat}
  {live chain : List Nat} {state : State} {lists newLists : Place → List Nat}

/-! ## A megablock goes from one list to another -/

/-- The lists after a megablock has gone to the front of another one. -/
def moved (lists : Place → List Nat) (source target : Place) (mb : Nat) : Place → List Nat :=
  let without := Function.update lists source ((lists source).erase mb)
  Function.update without target (mb :: without target)

/-- The lists after a megablock that was on none has been linked. -/
def added (lists : Place → List Nat) (target : Place) (mb : Nat) : Place → List Nat :=
  Function.update lists target (mb :: lists target)

theorem mem_added {target place : Place} {other : Nat} :
    other ∈ added lists target mb place ↔ other ∈ lists place ∨ place = target ∧ other = mb := by
  unfold added
  by_cases same : place = target
  · rw [same, Function.update_self, List.mem_cons, or_comm, and_iff_right rfl]
  · rw [Function.update_of_ne same]
    exact (or_iff_left fun both => same both.1).symm

theorem mem_erased {source place : Place} {other : Nat} (different : other ≠ mb) :
    other ∈ Function.update lists source ((lists source).erase mb) place ↔
      other ∈ lists place := by
  by_cases same : place = source
  · rw [same, Function.update_self, List.mem_erase_of_ne different]
  · rw [Function.update_of_ne same]

theorem mem_moved {source target place : Place} {other : Nat} (different : other ≠ mb) :
    other ∈ moved lists source target mb place ↔ other ∈ lists place := by
  have isAdded := @mem_added mb (Function.update lists source ((lists source).erase mb)) target
    place other
  rw [mem_erased different, or_iff_left fun both => different both.2] at isAdded
  exact isAdded

theorem moved_self (shelved : Shelved allocator lists) {source target place : Place}
    (member : mb ∈ lists source) : mb ∈ moved lists source target mb place ↔ place = target := by
  have isAdded := @mem_added mb (Function.update lists source ((lists source).erase mb)) target
    place mb
  rw [or_iff_right (shelved.unlink_fresh member place), and_iff_left rfl] at isAdded
  exact isAdded

theorem Shelved.move (shelved : Shelved allocator lists) {source target : Place}
    (sourceLinked : source ≠ .free) (targetLinked : target ≠ .free)
    (member : mb ∈ lists source) :
    Shelved ((allocator.unlink source mb).linkInFront target mb)
      (moved lists source target mb) :=
  (shelved.unlink sourceLinked member).linkInFront targetLinked (shelved.unlink_fresh member)
    (shelved.ne_zero member)

/-! ## The blocks of the megablock -/

/-- A megablock of which some blocks are now live and others free. -/
theorem InUse.change (inUse : InUse platform old mb index live chain carved)
    {newLive newChain : List Nat} (sameIndex : new.heap.index = old.heap.index)
    (first : new.heap.firstBlock mb = newChain.headD 0)
    (linked : Linked id new.heap.nextFreeBlock newChain)
    (perm : (newChain ++ newLive).Perm (chain ++ live))
    (sameOwner : new.heap.megaBlock = old.heap.megaBlock)
    (counted : new.heap.numOfAllocatedBlocks mb =
      old.heap.numOfAllocatedBlocks mb + newLive.length - live.length)
    (justAllocated : new.context.justAllocated = old.context.justAllocated)
    (blocksLeft : new.context.blocksLeft = old.context.blocksLeft)
    (nextFreeBlock : new.context.nextFreeBlock = old.context.nextFreeBlock) :
    InUse platform new mb index newLive newChain carved where
  isIndex := sameIndex ▸ inUse.isIndex
  low := inUse.low
  high := inUse.high
  first := first
  linked := linked
  blocks := perm.trans inUse.blocks
  owner block member := sameOwner ▸ inUse.owner block member
  counted := by
    rw [counted, inUse.counted]
    omega
  positive := inUse.positive
  bound := inUse.bound
  whole notCarving := inUse.whole (justAllocated ▸ notCarving)
  rest isCarving := by
    rw [blocksLeft, nextFreeBlock]
    exact inUse.rest (justAllocated ▸ isCarving)

theorem regions_cons_small {block : Block} (notSystem : block.megaBlock ≠ 0)
    (newAllocator : Allocator) :
    regions ⟨newAllocator, state.megaBlocks, block :: state.live⟩ = regions state := by
  unfold regions
  rw [List.filter_cons_of_neg (by simpa using notSystem)]

/-- A block of a megablock becomes live. -/
theorem Inv.handOut (inv : Inv platform state lists) {block : Nat} {megaBlocks : List Nat}
    (shelved : Shelved new newLists)
    (others : ∀ other, other ≠ mb → ∀ place, other ∈ newLists place ↔ other ∈ lists place)
    (onList : ∃ place, place ≠ .free ∧ mb ∈ newLists place)
    (known : ∀ other, other ≠ mb → (other ∈ megaBlocks ↔ other ∈ state.megaBlocks))
    (given : mb ∈ megaBlocks)
    (alike : ∀ other ∈ state.megaBlocks, other ≠ mb →
      Alike state.allocator new (mine state.live other) other)
    (standing : ∀ place, mb ∈ newLists place →
      Standing platform new (block :: mine state.live mb) mb place)
    (carving : ∀ index, new.context.justAllocated index = mb → new.heap.index mb = index)
    (carvingOther : ∀ index, new.context.justAllocated index ≠ mb →
      new.context.justAllocated index = 0 ∨
        new.context.justAllocated index = state.allocator.context.justAllocated index)
    (sameHeader : ∀ other ∈ state.live, other.megaBlock = 0 →
      new.heap.megaBlock other.header = state.allocator.heap.megaBlock other.header)
    (small : size ≤ maxBlockSize - blockHeaderSize)
    (isClass : new.heap.index mb = classOf platform size)
    (isHeader : new.heap.megaBlock block = mb)
    (sameMine : ∀ other ∈ state.live, other.megaBlock = mb →
      new.heap.index mb = state.allocator.heap.index mb ∧
        new.heap.megaBlock other.header = state.allocator.heap.megaBlock other.header)
    (apart : (regions ⟨new, megaBlocks, state.live⟩).Pairwise Extent.Apart) :
    Inv platform ⟨new, megaBlocks, ⟨block, size, new.heap.megaBlock block⟩ :: state.live⟩
      newLists := by
  obtain ⟨onPlace, notFree, onNew⟩ := onList
  have mbNonzero := shelved.ne_zero onNew
  rw [isHeader]
  apply inv.update shelved others ⟨onPlace, onNew⟩ known given alike
  · intro other different
    exact (mine_cons _ _ _).trans (if_neg different.symm)
  · intro place onList
    rw [mine_cons, if_pos rfl]
    exact standing place onList
  · exact fun index isCarving => ⟨⟨onPlace, notFree, onNew⟩, carving index isCarving⟩
  · exact carvingOther
  · intro other isLive different
    exact (List.mem_cons.mp isLive).resolve_left fun equal => different (equal ▸ rfl)
  · exact sameHeader
  · intro other isLive isMine
    rcases List.mem_cons.mp isLive with isNew | isLive
    · rw [isNew]
      exact ⟨small, isClass, isHeader⟩
    · obtain ⟨_, wasSmall, wasClass⟩ := inv.owned other isLive (isMine ▸ mbNonzero)
      obtain ⟨sameIndex, sameHeader⟩ := sameMine other isLive isMine
      rw [isMine] at wasClass
      exact ⟨wasSmall, sameIndex.trans wasClass,
        sameHeader.trans ((inv.header other isLive).trans isMine)⟩
  · have sameRegions := @regions_cons_small ⟨new, megaBlocks, state.live⟩ ⟨block, size, mb⟩
      mbNonzero new
    exact sameRegions ▸ apart

/-! ## Path 1 -/

/-- The megablock without the block that is taken, still on its old list. -/
def taken (allocator : Allocator) (mb : Nat) : Allocator :=
  let heap := allocator.heap
  ⟨(heap.setNumOfAllocatedBlocks mb (heap.numOfAllocatedBlocks mb + 1)).setFirstBlock mb
    (heap.nextFreeBlock (heap.firstBlock mb)), allocator.context⟩

theorem taken_firstBlock (allocator : Allocator) (mb : Nat) :
    (taken allocator mb).heap.firstBlock mb =
      allocator.heap.nextFreeBlock (allocator.heap.firstBlock mb) :=
  Function.update_self ..

theorem taken_alike {other : Nat} (different : other ≠ mb) :
    Alike allocator (taken allocator mb) live other where
  firstBlock := Function.update_of_ne different _ _
  index := rfl
  numOfAllocatedBlocks := Function.update_of_ne different _ _
  nextFreeBlock _ _ _ := rfl
  megaBlock _ _ := rfl
  justAllocated _ := Iff.rfl
  rest _ _ := ⟨rfl, rfl⟩

theorem taken_inUse {block : Nat}
    (inUse : InUse platform allocator mb index live (block :: chain) carved) :
    InUse platform (taken allocator mb) mb index (block :: live) chain carved := by
  have isFirst : allocator.heap.firstBlock mb = block := inUse.first
  apply inUse.change
  · rfl
  · rw [taken_firstBlock, isFirst]
    exact inUse.linked.2.1
  · exact inUse.linked.2.2
  · exact List.perm_middle
  · rfl
  · have counted : (taken allocator mb).heap.numOfAllocatedBlocks mb =
        allocator.heap.numOfAllocatedBlocks mb + 1 := Function.update_self ..
    rw [counted, List.length_cons]
    omega
  · rfl
  · rfl
  · rfl

/-- A free block of the first megablock that has some is handed out. -/
theorem inv_takeFree (inv : Inv platform state lists)
    (small : size ≤ maxBlockSize - blockHeaderSize)
    (nonempty : state.allocator.context.first (classOf platform size) ≠ 0) :
    ∃ block newLists,
      (state.allocator.takeFree (classOf platform size)).1 = block + blockHeaderSize ∧
      Inv platform ⟨(state.allocator.takeFree (classOf platform size)).2, state.megaBlocks,
        ⟨block, size, (state.allocator.takeFree (classOf platform size)).2.heap.megaBlock block⟩ ::
          state.live⟩ newLists := by
  obtain ⟨mb, isMb⟩ : ∃ mb, state.allocator.context.first (classOf platform size) = mb := ⟨_, rfl⟩
  have member : mb ∈ lists (.partly (classOf platform size)) :=
    isMb ▸ inv.shelved.first_mem nonempty
  have mbNonzero := inv.shelved.ne_zero member
  have isKnown : mb ∈ state.megaBlocks := (inv.known mb).mpr ⟨_, member⟩
  obtain ⟨chain, carved, someFree, inUse, positive⟩ := inv.standing _ mb member
  obtain ⟨block, rest, isChain⟩ := List.exists_cons_of_ne_nil someFree
  subst isChain
  have isFirst : state.allocator.heap.firstBlock mb = block := inUse.first
  have newUse := taken_inUse inUse
  have isOwned : state.allocator.heap.megaBlock block = mb :=
    inUse.owner block (inUse.mem_slots (.inl List.mem_cons_self))
  have takenShelved : Shelved (taken state.allocator mb) lists :=
    inv.shelved.congr (fun _ => rfl) rfl rfl
  -- the megablock stays where it is or goes to the filled list
  obtain ⟨result, isResult, same, newLists, shelved, others, onList, standing⟩ :
      ∃ result, state.allocator.takeFree (classOf platform size) =
          (block + blockHeaderSize, result) ∧
        SameBlocks (taken state.allocator mb) result ∧
        ∃ newLists, Shelved result newLists ∧
          (∀ other, other ≠ mb → ∀ place, other ∈ newLists place ↔ other ∈ lists place) ∧
          (∃ place, place ≠ .free ∧ mb ∈ newLists place) ∧
          ∀ place, mb ∈ newLists place →
            Standing platform result (block :: mine state.live mb) mb place := by
    have isTake : state.allocator.takeFree (classOf platform size) =
        (block + blockHeaderSize, if (taken state.allocator mb).heap.firstBlock mb = 0 then
          ((taken state.allocator mb).unlinkFirst (.partly (classOf platform size)) mb).linkInFront
            .filled mb
        else taken state.allocator mb) := by
      unfold Allocator.takeFree
      dsimp only
      rw [isMb, ← isFirst]
      rfl
    rw [isTake, newUse.first]
    cases rest with
    | nil =>
        rw [if_pos List.headD_nil]
        have noPrev : (taken state.allocator mb).heap.prev mb = 0 := by
          have linked := takenShelved.linked (.partly (classOf platform size)) (by simp)
          apply (linked.prev_eq_before_iff (inv.shelved.nodup _) (inv.shelved.nonzero _) member).mpr
          rw [← inv.shelved.head]
          exact isMb
        rw [Allocator.unlinkFirst_eq _ _ _ mbNonzero noPrev]
        have same := (Allocator.unlink_same (taken state.allocator mb)
          (.partly (classOf platform size)) mb mbNonzero).trans
            (Allocator.linkInFront_same _ .filled mb)
        refine ⟨_, rfl, same, moved lists (.partly (classOf platform size)) .filled mb,
          takenShelved.move (by simp) (by simp) member, ?_, ?_, ?_⟩
        · exact fun other different place => mem_moved different
        · exact ⟨.filled, by simp, (moved_self inv.shelved member).mpr rfl⟩
        · intro place onList
          rw [(moved_self inv.shelved member).mp onList]
          exact ⟨_, _, newUse.congr (.of_same same)⟩
    | cons second rest =>
        have notZero : (second :: rest).headD 0 ≠ 0 := newUse.linked.1
        rw [if_neg notZero]
        refine ⟨_, rfl, ⟨rfl, rfl, rfl, rfl, rfl, rfl, rfl, rfl⟩, lists, takenShelved, ?_, ?_, ?_⟩
        · exact fun _ _ _ => Iff.rfl
        · exact ⟨_, by simp, member⟩
        · intro place onList
          rw [inv.shelved.disjoint place _ mb onList member]
          refine ⟨_, _, List.cons_ne_nil _ _, newUse, ?_⟩
          have counted : (taken state.allocator mb).heap.numOfAllocatedBlocks mb =
              state.allocator.heap.numOfAllocatedBlocks mb + 1 := Function.update_self ..
          omega
  have isHeader : result.heap.megaBlock block = mb := by
    rw [same.megaBlock]
    exact isOwned
  rw [isResult]
  refine ⟨block, newLists, rfl, inv.handOut shelved others onList (fun _ _ => Iff.rfl) isKnown ?_
    standing ?_ ?_ ?_ small ?_ isHeader ?_ inv.apart⟩
  · exact fun other _ different => (taken_alike different).trans (.of_same same)
  · intro index isCarving
    rw [same.justAllocated] at isCarving
    have wasCarving : state.allocator.context.justAllocated index = mb := isCarving
    obtain ⟨_, _, _, wasIndex⟩ := inv.carving index (wasCarving ▸ mbNonzero)
    rw [same.index]
    exact wasCarving ▸ wasIndex
  · intro index _
    exact .inr (congrFun same.justAllocated index)
  · intro other _ _
    exact congrFun same.megaBlock other.header
  · rw [same.index]
    exact inUse.isIndex
  · intro other _ _
    exact ⟨congrFun same.index mb, congrFun same.megaBlock other.header⟩

/-! ## Path 2 -/

theorem Inv.sys_not_holds (inv : Inv platform state lists) {block : Block}
    (member : block ∈ state.live) (isSystem : block.megaBlock = 0)
    (isKnown : mb ∈ state.megaBlocks) : ¬ Holds mb block.header := by
  have apart := (List.pairwise_append.mp inv.apart).2.2 (megaExtent mb)
    (List.mem_map.mpr ⟨mb, isKnown, rfl⟩) (sysExtent block)
    (List.mem_map.mpr ⟨block, List.mem_filter.mpr ⟨member, by simpa using isSystem⟩, rfl⟩)
  unfold megaExtent sysExtent Extent.Apart Library.Apart at apart
  have positive : 0 < megaBlockSize ∧ 0 < blockHeaderSize := by decide
  unfold Holds
  dsimp only at apart
  omega

/-- The next block of a megablock without free ones. -/
theorem carve_inUse (inUse : InUse platform allocator mb index live [] carved)
    (isCarving : allocator.context.justAllocated index = mb) (nonzero : mb ≠ 0) :
    ∃ block result, allocator.carve platform index = (block + blockHeaderSize, result) ∧
      Holds mb block ∧ result.heap = allocator.heap.setMegaBlock block mb ∧
      InUse platform result mb index (block :: live) [] (carved + 1) ∧
      (∀ other, result.context.head other = allocator.context.head other) ∧
      (∀ other, other ≠ index →
        result.context.justAllocated other = allocator.context.justAllocated other ∧
        result.context.blocksLeft other = allocator.context.blocksLeft other ∧
        result.context.nextFreeBlock other = allocator.context.nextFreeBlock other) ∧
      (result.context.justAllocated index = mb ∨ result.context.justAllocated index = 0) := by
  obtain ⟨below, isLeft, isNext⟩ := inUse.rest isCarving
  obtain ⟨block, isBlock⟩ : ∃ block, block =
      mb + megaBlockHeaderSize + carved * getSizeFromIndex platform index := ⟨_, rfl⟩
  rw [← isBlock] at isNext
  have whole : slots platform mb index (carved + 1) = slots platform mb index carved ++ [block] := by
    unfold slots
    rw [run_add, run_succ, run_zero, isBlock]
  have newMem : block ∈ slots platform mb index (carved + 1) := by simp [whole]
  have bounds := slot_bounds inUse.low inUse.high below newMem
  have positive := inUse.size_pos
  obtain ⟨result, isResult⟩ : ∃ result, (allocator.carve platform index).2 = result := ⟨_, rfl⟩
  have isHeap : result.heap = allocator.heap.setMegaBlock block mb := by
    rw [← isResult, ← isNext, ← isCarving]
    rfl
  have left : result.context.blocksLeft index = blockCount platform index - (carved + 1 : Nat) := by
    have isNew : result.context.blocksLeft index = allocator.context.blocksLeft index - 1 := by
      rw [← isResult]
      exact Function.update_self ..
    rw [isNew, isLeft]
    omega
  have newJust : result.context.justAllocated = if result.context.blocksLeft index = 0 then
      Function.update allocator.context.justAllocated index 0
      else allocator.context.justAllocated := by
    have isNew : result.context.blocksLeft index = allocator.context.blocksLeft index - 1 := by
      rw [← isResult]
      exact Function.update_self ..
    rw [isNew, ← isResult]
    rfl
  have newNext : result.context.nextFreeBlock index =
      block + getSizeFromIndex platform index := by
    rw [← isResult, ← isNext]
    exact Function.update_self ..
  have justIndex : result.context.justAllocated index = mb ∧ result.context.blocksLeft index ≠ 0 ∨
      result.context.justAllocated index = 0 ∧ result.context.blocksLeft index = 0 := by
    rw [newJust]
    split
    · next isDone => exact .inr ⟨Function.update_self .., isDone⟩
    · next notDone => exact .inl ⟨isCarving, notDone⟩
  refine ⟨block, result, ?_, ?_, isHeap, ?_, ?_, ?_, ?_⟩
  · rw [← isResult, ← isNext]
    rfl
  · unfold Holds
    omega
  · constructor
    · rw [isHeap]
      exact inUse.isIndex
    · exact inUse.low
    · exact inUse.high
    · rw [isHeap]
      exact inUse.first
    · trivial
    · rw [whole]
      have blocks := inUse.blocks
      rw [List.nil_append] at blocks ⊢
      exact (blocks.cons block).trans (List.perm_append_singleton _ _).symm
    · intro other member
      rw [isHeap]
      by_cases same : other = block
      · rw [same]
        exact Function.update_self ..
      · rw [whole] at member
        have isOld : other ∈ slots platform mb index carved := by simpa [same] using member
        exact (Function.update_of_ne same _ _).trans (inUse.owner other isOld)
    · rw [isHeap, List.length_cons]
      have counted := inUse.counted
      simp only [Heap.setMegaBlock]
      omega
    · exact Nat.succ_pos _
    · exact below
    · intro notCarving
      rcases justIndex with ⟨isMb, _⟩ | ⟨_, isDone⟩
      · exact absurd isMb notCarving
      · omega
    · intro stillCarving
      rcases justIndex with ⟨_, notDone⟩ | ⟨isNull, _⟩
      · refine ⟨by omega, left, ?_⟩
        rw [newNext, isBlock, Nat.succ_mul, Nat.add_assoc]
      · exact absurd (stillCarving.symm.trans isNull) nonzero
  · intro other
    rw [← isResult]
    cases other with
    | free => rfl
    | filled => rfl
    | partly _ => rfl
  · intro other different
    rw [newJust, ← isResult]
    refine ⟨?_, Function.update_of_ne different _ _, Function.update_of_ne different _ _⟩
    split
    · exact Function.update_of_ne different _ _
    · rfl
  · exact justIndex.imp And.left And.left

/-- The next block of the megablock that is being carved is handed out. -/
theorem inv_carve (inv : Inv platform state lists)
    (small : size ≤ maxBlockSize - blockHeaderSize)
    (noFree : state.allocator.context.first (classOf platform size) = 0)
    (carving : state.allocator.context.justAllocated (classOf platform size) ≠ 0) :
    ∃ block result,
      state.allocator.carve platform (classOf platform size) = (block + blockHeaderSize, result) ∧
      Inv platform ⟨result, state.megaBlocks,
        ⟨block, size, result.heap.megaBlock block⟩ :: state.live⟩ lists := by
  obtain ⟨mb, isMb⟩ : ∃ mb, state.allocator.context.justAllocated (classOf platform size) = mb :=
    ⟨_, rfl⟩
  rw [isMb] at carving
  obtain ⟨place, notFree, member, isIndex⟩ := inv.carving _ (isMb ▸ carving)
  rw [isMb] at member isIndex
  have isKnown : mb ∈ state.megaBlocks := (inv.known mb).mpr ⟨_, member⟩
  have isFilled : place = .filled := by
    cases place with
    | free => exact absurd rfl notFree
    | filled => rfl
    | partly index =>
        obtain ⟨_, _, _, inUse, _⟩ := inv.standing _ mb member
        have sameIndex := inUse.isIndex.symm.trans isIndex
        have isEmpty := @Shelved.eq_nil_of_head _ _ (.partly index) inv.shelved
          (sameIndex ▸ noFree)
        rw [isEmpty] at member
        cases member
  subst isFilled
  obtain ⟨index, carved, inUse⟩ := inv.standing _ mb member
  have sameIndex : index = classOf platform size := inUse.isIndex.symm.trans isIndex
  subst sameIndex
  obtain ⟨block, result, isResult, holds, isHeap, newUse, heads, elsewhere, stillCarving⟩ :=
    carve_inUse inUse isMb carving
  have notJust : ∀ other, other ≠ mb → other ≠ 0 →
      result.context.justAllocated (classOf platform size) ≠ other := by
    intro other different nonzero
    rcases stillCarving with isSame | isNull
    · exact isSame ▸ different.symm
    · exact isNull ▸ nonzero.symm
  refine ⟨block, result, isResult, inv.handOut ?_ (fun _ _ _ => Iff.rfl) ⟨_, notFree, member⟩
    (fun _ _ => Iff.rfl) isKnown ?_ ?_ ?_ ?_ ?_ small ?_ ?_ ?_ inv.apart⟩
  · apply inv.shelved.congr heads
    · rw [isHeap]
      rfl
    · rw [isHeap]
      rfl
  · intro other otherKnown different
    have otherNonzero := inv.mb_ne_zero otherKnown
    constructor
    · rw [isHeap]
      rfl
    · rw [isHeap]
      rfl
    · rw [isHeap]
      rfl
    · intro _ _ _
      rw [isHeap]
      rfl
    · intro otherBlock otherHolds
      rw [isHeap]
      apply Function.update_of_ne
      intro equal
      exact not_holds_of_apart (inv.mega_apart isKnown otherKnown different.symm) holds
        (equal ▸ otherHolds)
    · intro index
      by_cases same : index = classOf platform size
      · rw [same, isMb]
        exact iff_of_false (notJust other different otherNonzero) different.symm
      · rw [(elsewhere index same).1]
    · intro index isCarving
      have notSame : index ≠ classOf platform size := by
        intro same
        rw [same, isMb] at isCarving
        exact different isCarving.symm
      exact (elsewhere index notSame).2
  · intro place onPlace
    rw [inv.shelved.disjoint place _ mb onPlace member]
    exact ⟨_, _, newUse⟩
  · intro index isCarving
    by_cases same : index = classOf platform size
    · rw [same]
      exact newUse.isIndex
    · rw [(elsewhere index same).1] at isCarving
      obtain ⟨_, _, _, wasIndex⟩ := inv.carving index (isCarving ▸ carving)
      rw [isHeap]
      exact isCarving ▸ wasIndex
  · intro index notCarving
    by_cases same : index = classOf platform size
    · rw [same] at notCarving ⊢
      exact .inl (stillCarving.resolve_left notCarving)
    · exact .inr (elsewhere index same).1
  · intro other isLive isSystem
    rw [isHeap]
    apply Function.update_of_ne
    exact fun equal => inv.sys_not_holds isLive isSystem isKnown (equal ▸ holds)
  · exact newUse.isIndex
  · rw [isHeap]
    exact Function.update_self ..
  · intro other isLive isMine
    rw [isHeap]
    refine ⟨rfl, ?_⟩
    by_cases same : other.header = block
    · rw [same]
      have wasHeader := inv.header other isLive
      rw [same, isMine] at wasHeader
      exact (Function.update_self ..).trans wasHeader.symm
    · exact Function.update_of_ne same _ _

end MallocSurvey.Tav
