import MallocSurvey.Tav.Taking

/-! # Megablocks and blocks that come from the system or the free list -/

namespace MallocSurvey.Tav

open Library

variable {platform : Platform} {allocator middle new : Allocator} {mb index carved size : Nat}
  {live chain : List Nat} {state : State} {lists newLists : Place → List Nat}

/-! ## Paths 3 and 4 -/

/-- The heap after the fields of the megablock have been set, before it is linked. -/
def prepared (allocator : Allocator) (index mb : Nat) : Allocator :=
  let heap := allocator.heap.setFirstBlock mb 0
  let heap := { heap with index := Function.update heap.index mb index }
  ⟨heap.setNumOfAllocatedBlocks mb (blockCount platform index), allocator.context⟩

theorem start_eq (allocator : Allocator) (index mb : Nat) :
    ∃ result, allocator.start platform index mb =
        (mb + megaBlockHeaderSize + blockHeaderSize, result) ∧
      result.heap = ((@prepared platform allocator index mb).linkInFront
        .filled mb).heap.setMegaBlock (mb + megaBlockHeaderSize) mb ∧
      (∀ place, result.context.head place =
        ((@prepared platform allocator index mb).linkInFront .filled mb).context.head place) ∧
      result.context.justAllocated = Function.update allocator.context.justAllocated index mb ∧
      result.context.blocksLeft = Function.update allocator.context.blocksLeft index
        (blockCount platform index - 1) ∧
      result.context.nextFreeBlock = Function.update allocator.context.nextFreeBlock index
        (mb + megaBlockHeaderSize + getSizeFromIndex platform index) := by
  have isCount : (megaBlockSize : Int) / (getSizeFromIndex platform index : Int) =
      (blockCount platform index : Int) := (Int.natCast_ediv _ _).symm
  refine ⟨(allocator.start platform index mb).2, rfl, ?_, ?_, rfl, ?_, rfl⟩
  · unfold Allocator.start prepared
    dsimp only
    rw [isCount]
  · intro place
    cases place with
    | free => rfl
    | filled => rfl
    | partly _ => rfl
  · unfold Allocator.start
    dsimp only
    rw [isCount]
    rfl

/-- A megablock on no list is given to a class, which has none with free blocks. -/
theorem inv_start (inv : Inv platform state lists)
    (small : size ≤ maxBlockSize - blockHeaderSize) {megaBlocks : List Nat}
    (shelved : Shelved middle newLists) (same : SameBlocks state.allocator middle)
    (fresh : ∀ place, mb ∉ newLists place) (nonzero : mb ≠ 0)
    (others : ∀ other, other ≠ mb → ∀ place, other ∈ newLists place ↔ other ∈ lists place)
    (noneLive : mine state.live mb = [])
    (notCarving : state.allocator.context.justAllocated (classOf platform size) = 0)
    (notJust : ∀ index, state.allocator.context.justAllocated index ≠ mb)
    (known : ∀ other, other ≠ mb → (other ∈ megaBlocks ↔ other ∈ state.megaBlocks))
    (given : mb ∈ megaBlocks)
    (apart : (regions ⟨middle, megaBlocks, state.live⟩).Pairwise Extent.Apart) :
    ∃ block result newLists,
      middle.start platform (classOf platform size) mb = (block + blockHeaderSize, result) ∧
      Inv platform ⟨result, megaBlocks,
        ⟨block, size, result.heap.megaBlock block⟩ :: state.live⟩ newLists := by
  obtain ⟨low, high, _⟩ := classOf_spec platform small
  have sizes := size_bounds platform low high
  have counts := blockCount_bounds platform low high
  obtain ⟨result, isResult, isHeap, heads, just, left, next⟩ :=
    @start_eq platform middle (classOf platform size) mb
  have isMb : slots platform mb (classOf platform size) 1 = [mb + megaBlockHeaderSize] := by
    unfold slots
    rw [run_succ, run_zero]
  have holds : Holds mb (mb + megaBlockHeaderSize) := by
    have positive : 0 < megaBlockSize := by decide
    unfold Holds
    omega
  have linked := Allocator.linkInFront_same
    (@prepared platform middle (classOf platform size) mb) .filled mb
  have prepShelved : Shelved (@prepared platform middle (classOf platform size) mb) newLists :=
    shelved.congr (fun _ => rfl) rfl rfl
  have newShelved := prepShelved.linkInFront (show Place.filled ≠ .free by simp) fresh nonzero
  have extents := (List.pairwise_append.mp apart).1
  have firstBlock : result.heap.firstBlock = Function.update middle.heap.firstBlock mb 0 := by
    rw [isHeap]
    exact linked.firstBlock
  have isIndex : result.heap.index =
      Function.update middle.heap.index mb (classOf platform size) := by
    rw [isHeap]
    exact linked.index
  have counted : result.heap.numOfAllocatedBlocks = Function.update
      middle.heap.numOfAllocatedBlocks mb (blockCount platform (classOf platform size)) := by
    rw [isHeap]
    exact linked.numOfAllocatedBlocks
  have nextFree : result.heap.nextFreeBlock = middle.heap.nextFreeBlock := by
    rw [isHeap]
    exact linked.nextFreeBlock
  have owner : result.heap.megaBlock =
      Function.update middle.heap.megaBlock (mb + megaBlockHeaderSize) mb := by
    rw [isHeap]
    exact congrArg (fun map => Function.update map (mb + megaBlockHeaderSize) mb) linked.megaBlock
  have otherIndex : ∀ {place : Nat}, place ≠ classOf platform size →
      result.context.justAllocated place = state.allocator.context.justAllocated place := by
    intro place different
    rw [just, Function.update_of_ne different, same.justAllocated]
  have newUse : InUse platform result mb (classOf platform size) [mb + megaBlockHeaderSize] []
      1 := by
    constructor
    · rw [isIndex]
      exact Function.update_self ..
    · exact low
    · exact high
    · rw [firstBlock]
      exact Function.update_self ..
    · trivial
    · rw [isMb]
      exact List.Perm.refl _
    · intro block member
      rw [isMb, List.mem_singleton] at member
      rw [owner, member]
      exact Function.update_self ..
    · rw [counted, Function.update_self, List.length_singleton]
      omega
    · exact Nat.one_pos
    · omega
    · intro notSame
      rw [just, Function.update_self] at notSame
      exact absurd rfl notSame
    · intro _
      rw [left, next, Function.update_self, Function.update_self, Nat.one_mul]
      exact ⟨by omega, rfl, rfl⟩
  refine ⟨mb + megaBlockHeaderSize, result, added newLists .filled mb, isResult,
    inv.handOut ?_ ?_ ⟨.filled, by simp, mem_added.mpr (.inr ⟨rfl, rfl⟩)⟩ known given ?_ ?_ ?_ ?_
      ?_ small ?_ ?_ ?_ apart⟩
  · apply newShelved.congr heads
    · rw [isHeap]
      rfl
    · rw [isHeap]
      rfl
  · intro other different place
    rw [mem_added, or_iff_left fun both => different both.2]
    exact others other different place
  · intro other otherKnown different
    have otherNonzero := inv.mb_ne_zero otherKnown
    have apartOther : (megaExtent mb).Apart (megaExtent other) :=
      Extent.apart_of_map extents given ((known other different).mpr otherKnown) different.symm
    refine ⟨?_, ?_, ?_, ?_, ?_, ?_, ?_⟩
    · rw [firstBlock, Function.update_of_ne different, same.firstBlock]
    · rw [isIndex, Function.update_of_ne different, same.index]
    · rw [counted, Function.update_of_ne different, same.numOfAllocatedBlocks]
    · intro _ _ _
      rw [nextFree, same.nextFreeBlock]
    · intro block otherHolds
      rw [owner, Function.update_of_ne, same.megaBlock]
      exact fun equal => not_holds_of_apart apartOther holds (equal ▸ otherHolds)
    · intro index
      by_cases isClass : index = classOf platform size
      · rw [isClass, just, Function.update_self, notCarving]
        exact iff_of_false different.symm otherNonzero.symm
      · rw [otherIndex isClass]
    · intro index isCarving
      have notClass : index ≠ classOf platform size := by
        intro isClass
        rw [isClass, notCarving] at isCarving
        exact otherNonzero isCarving.symm
      rw [left, next, Function.update_of_ne notClass, Function.update_of_ne notClass,
        same.blocksLeft, same.nextCarved]
      exact ⟨rfl, rfl⟩
  · intro place onPlace
    rw [noneLive]
    rcases mem_added.mp onPlace with isOld | ⟨isFilled, _⟩
    · exact absurd isOld (fresh place)
    · rw [isFilled]
      exact ⟨_, _, newUse⟩
  · intro index isCarving
    by_cases isClass : index = classOf platform size
    · rw [isClass]
      exact newUse.isIndex
    · rw [otherIndex isClass] at isCarving
      exact absurd isCarving (notJust index)
  · intro index notMb
    by_cases isClass : index = classOf platform size
    · rw [isClass, just, Function.update_self] at notMb
      exact absurd rfl notMb
    · exact .inr (otherIndex isClass)
  · intro other isLive isSystem
    rw [owner, Function.update_of_ne, same.megaBlock]
    intro equal
    have apartSys := (List.pairwise_append.mp apart).2.2 (megaExtent mb)
      (List.mem_map.mpr ⟨mb, given, rfl⟩) (sysExtent other)
      (List.mem_map.mpr ⟨other, List.mem_filter.mpr ⟨isLive, by simpa using isSystem⟩, rfl⟩)
    unfold megaExtent sysExtent Extent.Apart Library.Apart at apartSys
    have positive : 0 < megaBlockSize ∧ 0 < blockHeaderSize := by decide
    dsimp only at apartSys
    omega
  · exact newUse.isIndex
  · rw [owner]
    exact Function.update_self ..
  · intro other isLive isMine
    have inMine : other.header ∈ mine state.live mb := mem_mine.mpr ⟨other, isLive, isMine, rfl⟩
    rw [noneLive] at inMine
    cases inMine

/-- The first megablock of the free list is given to the class. -/
theorem inv_recycled (inv : Inv platform state lists)
    (small : size ≤ maxBlockSize - blockHeaderSize)
    (notCarving : state.allocator.context.justAllocated (classOf platform size) = 0)
    (someFree : state.allocator.context.freeMegaBlock ≠ 0) :
    ∃ block result newLists,
      Allocator.start platform ⟨state.allocator.heap, { state.allocator.context with
          freeMegaBlock := state.allocator.heap.next state.allocator.context.freeMegaBlock }⟩
        (classOf platform size) state.allocator.context.freeMegaBlock =
          (block + blockHeaderSize, result) ∧
      Inv platform ⟨result, state.megaBlocks,
        ⟨block, size, result.heap.megaBlock block⟩ :: state.live⟩ newLists := by
  obtain ⟨isFree, shelved⟩ := inv.shelved.popFree someFree
  have member : state.allocator.context.freeMegaBlock ∈ lists .free := by
    rw [isFree]
    exact List.mem_cons_self
  have freshHere : ∀ place, state.allocator.context.freeMegaBlock ∉
      Function.update lists .free (lists .free).tail place := by
    intro place
    by_cases same : place = .free
    · rw [same, Function.update_self]
      have nodup := inv.shelved.nodup .free
      rw [isFree] at nodup
      exact (List.nodup_cons.mp nodup).1
    · rw [Function.update_of_ne same]
      exact fun onPlace => same (inv.shelved.disjoint _ _ _ onPlace member)
  apply inv_start inv small shelved ⟨rfl, rfl, rfl, rfl, rfl, rfl, rfl, rfl⟩ freshHere someFree
  · intro other different place
    by_cases same : place = .free
    · rw [same, Function.update_self]
      constructor
      · exact List.mem_of_mem_tail
      · intro onFree
        rw [isFree] at onFree
        exact (List.mem_cons.mp onFree).resolve_left different
    · rw [Function.update_of_ne same]
  · exact (inv.standing .free _ member).1
  · exact notCarving
  · intro index isCarving
    obtain ⟨place, notFree, onPlace, _⟩ := inv.carving index (isCarving ▸ someFree)
    rw [isCarving] at onPlace
    exact notFree (inv.shelved.disjoint _ _ _ onPlace member)
  · exact fun _ _ => Iff.rfl
  · exact (inv.known _).mpr ⟨_, member⟩
  · exact inv.apart

/-- A megablock from the system is given to the class. -/
theorem inv_fresh (inv : Inv platform state lists)
    (small : size ≤ maxBlockSize - blockHeaderSize)
    (notCarving : state.allocator.context.justAllocated (classOf platform size) = 0)
    {answer : Nat} (nonzero : answer ≠ 0)
    (apart : ∀ region ∈ regions state, (megaExtent answer).Apart region) :
    ∃ block result newLists,
      state.allocator.start platform (classOf platform size) answer =
        (block + blockHeaderSize, result) ∧
      Inv platform ⟨result, answer :: state.megaBlocks,
        ⟨block, size, result.heap.megaBlock block⟩ :: state.live⟩ newLists := by
  have notKnown : answer ∉ state.megaBlocks := by
    intro isKnown
    have apartSelf := apart (megaExtent answer)
      (List.mem_append_left _ (List.mem_map.mpr ⟨answer, isKnown, rfl⟩))
    have positive : 0 < megaBlockSize + megaBlockHeaderSize := by decide
    exact apartSelf.ne positive rfl
  have freshHere : ∀ place, answer ∉ lists place :=
    fun place onPlace => notKnown ((inv.known answer).mpr ⟨place, onPlace⟩)
  apply inv_start inv small inv.shelved ⟨rfl, rfl, rfl, rfl, rfl, rfl, rfl, rfl⟩ freshHere nonzero
  · exact fun _ _ _ => Iff.rfl
  · rw [List.eq_nil_iff_forall_not_mem]
    intro header isMine
    obtain ⟨block, isLive, isOwner, _⟩ := mem_mine.mp isMine
    have owned := inv.owned block isLive (isOwner ▸ nonzero)
    exact notKnown (isOwner ▸ owned.1)
  · exact notCarving
  · intro index isCarving
    obtain ⟨place, _, onPlace, _⟩ := inv.carving index (isCarving ▸ nonzero)
    exact freshHere place (isCarving ▸ onPlace)
  · intro other different
    rw [List.mem_cons, or_iff_right different]
  · exact List.mem_cons_self
  · exact List.pairwise_cons.mpr ⟨apart, inv.apart⟩

/-! ## Blocks of the system -/

/-- A step that concerns no megablock. -/
theorem Inv.outside (inv : Inv platform state lists) {newLive : List Block}
    (shelved : Shelved new lists)
    (alike : ∀ mb ∈ state.megaBlocks, Alike state.allocator new (mine state.live mb) mb)
    (just : new.context.justAllocated = state.allocator.context.justAllocated)
    (sameMine : ∀ mb, mb ≠ 0 → mine newLive mb = mine state.live mb)
    (kept : ∀ block ∈ newLive, block.megaBlock ≠ 0 → block ∈ state.live)
    (system : ∀ block ∈ newLive, block.megaBlock = 0 →
      maxBlockSize - blockHeaderSize < block.size ∧ new.heap.megaBlock block.header = 0)
    (apart : (regions ⟨new, state.megaBlocks, newLive⟩).Pairwise Extent.Apart) :
    Inv platform ⟨new, state.megaBlocks, newLive⟩ lists := by
  refine ⟨shelved, inv.known, ?_, ?_, ?_, ?_, ?_, apart⟩
  · intro place mb member
    rw [sameMine mb (inv.shelved.ne_zero member)]
    exact (inv.standing place mb member).congr (alike mb ((inv.known mb).mpr ⟨place, member⟩))
  · intro index nonzero
    dsimp only at nonzero ⊢
    rw [just] at nonzero ⊢
    obtain ⟨place, notFree, member, isIndex⟩ := inv.carving index nonzero
    refine ⟨place, notFree, member, ?_⟩
    rw [(alike _ ((inv.known _).mpr ⟨place, member⟩)).index, isIndex]
  · exact fun block member isSystem => (system block member isSystem).1
  · intro block member notSystem
    obtain ⟨isKnown, small, isClass⟩ := inv.owned block (kept block member notSystem) notSystem
    refine ⟨isKnown, small, ?_⟩
    exact (alike _ isKnown).index.trans isClass
  · intro block member
    by_cases isSystem : block.megaBlock = 0
    · exact (system block member isSystem).2.trans isSystem.symm
    · have wasLive := kept block member isSystem
      obtain ⟨_, _, inUse, isMine, _⟩ := inv.inUse wasLive isSystem
      have holds := inUse.holds (inUse.mem_slots (.inr isMine))
      have isKnown := (inv.owned block wasLive isSystem).1
      exact ((alike _ isKnown).megaBlock _ holds).trans (inv.header block wasLive)

theorem regions_cons_system {block : Block} (isSystem : block.megaBlock = 0)
    (newAllocator : Allocator) :
    (regions ⟨newAllocator, state.megaBlocks, block :: state.live⟩).Perm
      (sysExtent block :: regions state) := by
  unfold regions
  rw [List.filter_cons_of_pos (by simpa using isSystem), List.map_cons]
  exact List.perm_middle

/-- A large block comes from the system. -/
theorem inv_sysAlloc (inv : Inv platform state lists)
    (large : maxBlockSize - blockHeaderSize < size) {answer : Nat}
    (apart : ∀ region ∈ regions state,
      Extent.Apart ⟨answer, size + blockHeaderSize⟩ region) :
    Inv platform ⟨(state.allocator.sysAlloc size answer).2, state.megaBlocks,
      ⟨answer, size, (state.allocator.sysAlloc size answer).2.heap.megaBlock answer⟩ ::
        state.live⟩ lists := by
  have isHeader : (state.allocator.sysAlloc size answer).2.heap.megaBlock =
      Function.update state.allocator.heap.megaBlock answer 0 := rfl
  rw [isHeader, Function.update_self]
  apply inv.outside
  · apply inv.shelved.congr
    · intro place
      cases place with
      | free => rfl
      | filled => rfl
      | partly _ => rfl
    · rfl
    · rfl
  · intro mb isKnown
    refine ⟨rfl, rfl, rfl, fun _ _ _ => rfl, ?_, fun _ => Iff.rfl, fun _ _ => ⟨rfl, rfl⟩⟩
    intro block holds
    rw [isHeader, Function.update_of_ne]
    intro equal
    have apartMega := apart (megaExtent mb)
      (List.mem_append_left _ (List.mem_map.mpr ⟨mb, isKnown, rfl⟩))
    unfold megaExtent Extent.Apart Library.Apart at apartMega
    have positive : 0 < blockHeaderSize := by decide
    unfold Holds at holds
    dsimp only at apartMega
    omega
  · rfl
  · intro mb nonzero
    exact (mine_cons _ _ _).trans (if_neg nonzero.symm)
  · intro block member notSystem
    exact (List.mem_cons.mp member).resolve_left fun equal => notSystem (equal ▸ rfl)
  · intro block member isSystem
    rw [isHeader]
    rcases List.mem_cons.mp member with isNew | isLive
    · rw [isNew]
      exact ⟨large, Function.update_self ..⟩
    · refine ⟨inv.system block isLive isSystem, ?_⟩
      by_cases same : block.header = answer
      · rw [same]
        exact Function.update_self ..
      · rw [Function.update_of_ne same, inv.header block isLive, isSystem]
  · rw [Extent.pairwise_perm (regions_cons_system (by rfl) _)]
    exact List.pairwise_cons.mpr ⟨apart, inv.apart⟩

/-! ## The event -/

theorem mbAlloc_small (allocator : Allocator) (small : size ≤ maxBlockSize - blockHeaderSize)
    (answer : Nat) : allocator.mbAlloc platform size answer =
      if allocator.context.first (classOf platform size) ≠ 0 then
        some (allocator.takeFree (classOf platform size))
      else if allocator.context.justAllocated (classOf platform size) ≠ 0 then
        some (allocator.carve platform (classOf platform size))
      else if allocator.context.freeMegaBlock ≠ 0 then
        some (Allocator.start platform ⟨allocator.heap, { allocator.context with
            freeMegaBlock := allocator.heap.next allocator.context.freeMegaBlock }⟩
          (classOf platform size) allocator.context.freeMegaBlock)
      else if answer = 0 then none
      else some (allocator.start platform (classOf platform size) answer) := by
  have atLeast : (if size < 1 then 1 else size) = max size 1 := by
    split
    · omega
    · omega
  unfold Allocator.mbAlloc
  rw [if_neg (by omega)]
  dsimp only
  rw [atLeast]
  rfl

theorem sysRequest_small (allocator : Allocator) (small : size ≤ maxBlockSize - blockHeaderSize) :
    allocator.sysRequest platform size =
      if allocator.context.first (classOf platform size) ≠ 0 ∨
        allocator.context.justAllocated (classOf platform size) ≠ 0 ∨
        allocator.context.freeMegaBlock ≠ 0 then none
      else some (megaBlockSize + megaBlockHeaderSize) := by
  unfold Allocator.sysRequest
  rw [if_neg (by omega)]
  rfl

theorem step_small (small : size ≤ maxBlockSize - blockHeaderSize) {answer block : Nat}
    {result : Allocator} (isResult : state.allocator.mbAlloc platform size answer =
      some (block + blockHeaderSize, result)) :
    step platform state (.alloc size answer) = some ⟨result,
      if (state.allocator.sysRequest platform size).isSome then answer :: state.megaBlocks
        else state.megaBlocks,
      ⟨block, size, result.heap.megaBlock block⟩ :: state.live⟩ := by
  simp only [step, isResult, Option.bind_eq_bind, Option.bind_some, Nat.add_sub_cancel, small,
    true_and, Option.pure_def]

/-- A call of `MBAlloc` for which the system has memory. -/
theorem inv_alloc (inv : Inv platform state lists) {answer : Nat}
    (enabled : Enabled platform state (.alloc size answer))
    (answers : state.allocator.sysRequest platform size = none ∨ answer ≠ 0) :
    ∃ next, step platform state (.alloc size answer) = some next ∧
      (∃ block, next.live = block :: state.live ∧ block.size = size) ∧
      ∃ newLists, Inv platform next newLists := by
  by_cases small : size ≤ maxBlockSize - blockHeaderSize
  · have isRequest := @sysRequest_small platform size state.allocator small
    have isAlloc := @mbAlloc_small platform size state.allocator small answer
    by_cases someFree : state.allocator.context.first (classOf platform size) ≠ 0
    · rw [if_pos someFree] at isAlloc
      rw [if_pos (.inl someFree)] at isRequest
      obtain ⟨block, newLists, isBlock, newInv⟩ := inv_takeFree inv small someFree
      refine ⟨_, step_small small (isAlloc.trans (congrArg some (Prod.ext isBlock rfl))),
        ⟨_, rfl, rfl⟩, newLists, ?_⟩
      rw [isRequest]
      exact newInv
    · rw [if_neg someFree] at isAlloc
      have noFree := not_not.mp someFree
      by_cases carving : state.allocator.context.justAllocated (classOf platform size) ≠ 0
      · rw [if_pos carving] at isAlloc
        rw [if_pos (.inr (.inl carving))] at isRequest
        obtain ⟨block, result, isResult, newInv⟩ := inv_carve inv small noFree carving
        refine ⟨_, step_small small (isAlloc.trans (congrArg some isResult)),
            ⟨_, rfl, rfl⟩, lists, ?_⟩
        rw [isRequest]
        exact newInv
      · rw [if_neg carving] at isAlloc
        have notCarving := not_not.mp carving
        by_cases recycled : state.allocator.context.freeMegaBlock ≠ 0
        · rw [if_pos recycled] at isAlloc
          rw [if_pos (.inr (.inr recycled))] at isRequest
          obtain ⟨block, result, newLists, isResult, newInv⟩ :=
            inv_recycled inv small notCarving recycled
          refine ⟨_, step_small small (isAlloc.trans (congrArg some isResult)),
            ⟨_, rfl, rfl⟩, newLists, ?_⟩
          rw [isRequest]
          exact newInv
        · have noneLeft := not_not.mp recycled
          rw [if_neg (by simp [noFree, notCarving, noneLeft])] at isRequest
          have nonzero : answer ≠ 0 := answers.resolve_left (by simp [isRequest])
          rw [if_neg recycled, if_neg nonzero] at isAlloc
          have apart := (enabled.2.resolve_left nonzero) _ isRequest
          obtain ⟨block, result, newLists, isResult, newInv⟩ :=
            inv_fresh inv small notCarving nonzero apart
          refine ⟨_, step_small small (isAlloc.trans (congrArg some isResult)),
            ⟨_, rfl, rfl⟩, newLists, ?_⟩
          rw [isRequest]
          exact newInv
  · have large : size > maxBlockSize - blockHeaderSize := by omega
    have isRequest : state.allocator.sysRequest platform size = some (size + blockHeaderSize) :=
      if_pos large
    have nonzero : answer ≠ 0 := answers.resolve_left (by simp [isRequest])
    have isAlloc : state.allocator.mbAlloc platform size answer =
        some (state.allocator.sysAlloc size answer) := by
      unfold Allocator.mbAlloc
      rw [if_pos large, if_neg nonzero]
    have newInv := inv_sysAlloc inv large ((enabled.2.resolve_left nonzero) _ isRequest)
    refine ⟨⟨(state.allocator.sysAlloc size answer).2, state.megaBlocks,
      ⟨answer, size, (state.allocator.sysAlloc size answer).2.heap.megaBlock answer⟩ ::
        state.live⟩, ?_, ⟨_, rfl, rfl⟩, lists, newInv⟩
    have isPtr : (state.allocator.sysAlloc size answer).1 - blockHeaderSize = answer :=
      Nat.add_sub_cancel ..
    simp only [step, isAlloc, Option.bind_eq_bind, Option.bind_some, Option.pure_def, isPtr,
      small, false_and, if_false]

end MallocSurvey.Tav
