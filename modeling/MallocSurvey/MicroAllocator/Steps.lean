import MallocSurvey.MicroAllocator.Invariant
import Mathlib.Data.List.Perm.Basic

/-! # What the operations do to the chunks -/

namespace MallocSurvey.MicroAllocator

open Library

variable {fixedSize : Nat} {state : MyMicroAllocator} {live : List Block}
  {name : ChunkName} {allocator : Fin maxAllocators}

/-- No chunk that has memory loses it. -/
def Retains (state next : MyMicroAllocator) : Prop :=
  ∀ name, (state.chunk name).data ≠ 0 → (next.chunk name).data = (state.chunk name).data

theorem Retains.ready {next : MyMicroAllocator} (retains : Retains state next)
    (ready : Ready fixedSize state) : Ready fixedSize next where
  primary allocator := by
    rw [retains _ (ready.primary allocator)]
    exact ready.primary allocator
  room := ready.room

theorem retains_setChunk {chunk : MemoryChunk}
    (same : (state.chunk name).data ≠ 0 → chunk.data = (state.chunk name).data) :
    Retains state (state.setChunk name chunk) := by
  intro other data
  change (Function.update state.chunk name chunk other).data = _
  by_cases isName : other = name
  · subst isName
    rw [Function.update_self]
    exact same data
  · rw [Function.update_of_ne isName]

/-! ## Filling a chunk -/

/-- Memory that no chunk has is cut into free blocks. -/
theorem Inv.fill (inv : Inv fixedSize state live)
    (member : name.chunkChunk ∈ state.chunkChunks allocator)
    (empty : (state.chunk name).data = 0) (room : 0 < fixedSize / blockSize allocator)
    {answer : Nat} (nonzero : answer ≠ 0)
    (fits : answer + blockSize allocator * (fixedSize / blockSize allocator) ≤ 2 ^ 64)
    (fresh : ∀ name, (state.chunk name).data ≠ 0 →
      Apart answer (blockSize allocator * (fixedSize / blockSize allocator))
        (state.chunk name).data ((state.chunk name).dataEnd - (state.chunk name).data))
    {myHeap : Bool} (heap : myHeap = true ↔ ∀ allocator, name ≠ primary allocator) :
    Inv fixedSize { state.setChunk name { state.chunk name with
      myHeap := myHeap
      chunkSize := blockSize allocator
      data := answer
      dataEnd := answer + blockSize allocator * (fixedSize / blockSize allocator)
      freeList := answer } with
      memory := linkBlocks (blockSize allocator) (fixedSize / blockSize allocator - 1) answer
        state.memory } live := by
  have wide := blockSize_ge allocator
  have slab := Slab.linkRun wide (by omega) room nonzero fits state.memory
  have frame := (linkRun_spec wide (by omega) (fixedSize / blockSize allocator - 1) answer
    state.memory nonzero (by rw [Nat.sub_add_cancel room]; exact fits)).2
  rw [Nat.sub_add_cancel room] at frame
  rw [linkBlocks_eq]
  have vacant : Vacant (state.chunk name) (liveOf live name) := by
    rcases inv.chunks allocator name member with vacant | ⟨starts, held⟩
    · exact vacant
    · exact absurd empty held.nonzero
  apply inv.setChunk member
  · refine .inr ⟨run answer (fixedSize / blockSize allocator) (blockSize allocator), nonzero, rfl,
      fits, ?_, ?_⟩
    · rw [vacant.live]
      exact slab
    · rw [vacant.live]
      exact vacant.count
  · intro other different place inside
    apply frame
    have data := inv.data_of_isInside inside
    have between := fresh other data
    unfold MemoryChunk.isInside at inside
    unfold Apart at between
    omega
  · exact fun _ _ => .rfl
  · intro other _ _ data
    have between := fresh other data
    rw [Nat.add_sub_cancel_left]
    exact between
  · exact inv.live
  · rw [heap]
    exact (and_iff_right nonzero).symm

/-- What `fetchChunk` does. -/
inductive Fetched (fixedSize : Nat) (state : MyMicroAllocator) (live : List Block)
    (name : ChunkName) (answer : Nat) : Option MyMicroAllocator → Prop
  | failed : answer = 0 → Fetched fixedSize state live name answer none
  | present : (state.chunk name).data ≠ 0 →
      Fetched fixedSize state live name answer (some state)
  | filled {next : MyMicroAllocator} : Inv fixedSize next live → Retains state next →
      next.chunkChunks = state.chunkChunks → next.current = state.current →
      (next.chunk name).freeList ≠ 0 → Fetched fixedSize state live name answer (some next)

theorem Inv.fetchChunk_spec (inv : Inv fixedSize state live) (ready : Ready fixedSize state)
    (member : name.chunkChunk ∈ state.chunkChunks allocator) {answer : Nat}
    (answers : AnswersData state (blockSize allocator * (fixedSize / blockSize allocator)) answer) :
    Fetched fixedSize state live name answer
      (state.fetchChunk name (blockSize allocator) (fixedSize / blockSize allocator) answer) := by
  have room := ready.room allocator
  unfold MyMicroAllocator.fetchChunk
  by_cases empty : (state.chunk name).data = 0
  · rw [if_pos empty]
    by_cases refused : answer = 0
    · rw [if_pos refused]
      exact .failed refused
    · rw [if_neg refused]
      have notPrimary : ∀ allocator, name ≠ primary allocator := fun allocator same =>
        ready.primary allocator (same ▸ empty)
      obtain ⟨fits, fresh⟩ := answers.resolve_left refused
      have filled := inv.fill member empty room refused fits fresh
        (iff_of_true rfl notPrimary : true = true ↔ _)
      have result : ((state.setChunk name { state.chunk name with myHeap := true }).initChunk name
          answer (blockSize allocator) (fixedSize / blockSize allocator)) =
          some { state.setChunk name { state.chunk name with
            myHeap := true
            chunkSize := blockSize allocator
            data := answer
            dataEnd := answer + blockSize allocator * (fixedSize / blockSize allocator)
            freeList := answer } with
            memory := linkBlocks (blockSize allocator) (fixedSize / blockSize allocator - 1)
              answer state.memory } := by
        unfold MyMicroAllocator.initChunk MemoryChunk.init
        rw [if_neg (Nat.ne_of_gt room)]
        unfold MyMicroAllocator.setChunk
        simp only [Function.update_self, Function.update_idem, Option.bind_eq_bind,
          Option.bind_some, pure]
      simp only [result, Option.bind_eq_bind, Option.bind_some, pure]
      refine .filled ⟨filled.chunks, filled.others, filled.apart, filled.owner, filled.inside,
        filled.current, filled.live, filled.heap⟩ ?_ rfl rfl ?_
      · exact @retains_setChunk state name _ fun data => absurd empty data
      · change (Function.update state.chunk name _ name).freeList ≠ 0
        rw [Function.update_self]
        exact refused
  · rw [if_neg empty]
    exact .present empty

/-! ## Taking and returning a block -/

/-- A chunk with a free block gives its first one. -/
theorem Inv.takeBlock_spec (inv : Inv fixedSize state live)
    (member : name.chunkChunk ∈ state.chunkChunks allocator)
    (some_free : (state.chunk name).freeList ≠ 0) {size : Nat}
    (isAllocator : fixedAllocator size = some allocator) :
    Inv fixedSize (state.takeBlock name).2
      (⟨(state.takeBlock name).1, size, allocator, name⟩ :: live) ∧
    (state.takeBlock name).1 ≠ 0 ∧ Retains state (state.takeBlock name).2 ∧
    (state.takeBlock name).2.chunkChunks = state.chunkChunks ∧
    (state.takeBlock name).2.current = state.current := by
  unfold MyMicroAllocator.takeBlock
  rw [if_neg some_free]
  refine ⟨?_, some_free, retains_setChunk fun _ => rfl, rfl, rfl⟩
  rcases inv.chunks allocator name member with vacant | ⟨starts, held⟩
  · exact absurd vacant.freeList some_free
  · obtain ⟨rest, _, slab⟩ := held.slab.take some_free
    have taken := @Inv.setChunk fixedSize state live
      (⟨(state.chunk name).freeList, size, allocator, name⟩ :: live) name allocator inv member
      { state.chunk name with
        usedCount := (state.chunk name).usedCount + 1
        freeList := loadPointer state.memory (state.chunk name).freeList } state.memory
    apply taken
    · refine .inr ⟨rest, held.nonzero, held.dataEnd, held.fits, ?_, ?_⟩
      · rw [liveOf_cons, if_pos rfl]
        exact slab
      · rw [liveOf_cons, if_pos rfl, List.length_cons, held.count]
    · exact fun _ _ _ _ => rfl
    · intro other different
      rw [liveOf_cons, if_neg (Ne.symm different)]
    · exact fun other different => inv.apart name other (Ne.symm different)
    · intro block isLive
      rcases List.mem_cons.mp isLive with rfl | isLive
      · exact ⟨isAllocator, member⟩
      · exact inv.live block isLive
    · exact inv.heap name

/-- The live blocks without one of a chunk. -/
theorem liveOf_perm {index : Nat} {block : Block} (isBlock : live[index]? = some block) :
    live.Perm (block :: live.eraseIdx index) := by
  obtain ⟨inRange, isBlock⟩ := List.getElem?_eq_some_iff.mp isBlock
  rw [← isBlock]
  exact (List.getElem_cons_eraseIdx_perm inRange).symm

/-- What freeing a block does. -/
structure Freed (fixedSize : Nat) (state next : MyMicroAllocator) (live : List Block)
    (name : ChunkName) : Prop where
  inv : Inv fixedSize next live
  others : ∀ other, other ≠ name → next.chunk other = state.chunk other
  released : (next.chunk name).data = 0 ↔
    liveOf live name = [] ∧ ∀ allocator, name ≠ primary allocator
  kept : (next.chunk name).data ≠ 0 → (next.chunk name).data = (state.chunk name).data

theorem Inv.deallocateChunk_spec (inv : Inv fixedSize state live) {rest : List Block}
    {block : Block} (perm : live.Perm (block :: rest)) :
    ∃ next, state.deallocateChunk block.chunk block.pointer = some next ∧
      Freed fixedSize state next rest block.chunk := by
  have isLive : block ∈ live := perm.mem_iff.mpr List.mem_cons_self
  obtain ⟨isAllocator, member⟩ := inv.live block isLive
  have wide := blockSize_ge block.allocator
  have livePerm : (liveOf live block.chunk).Perm (block.pointer :: liveOf rest block.chunk) := by
    have mapped := (perm.filter fun other => other.chunk = block.chunk).map Block.pointer
    have consed := liveOf_cons block rest block.chunk
    rw [if_pos rfl] at consed
    rw [← consed]
    exact mapped
  rcases inv.chunks block.allocator block.chunk member with vacant | ⟨starts, held⟩
  · have isMember := mem_liveOf.mpr ⟨block, isLive, rfl, rfl⟩
    rw [vacant.live] at isMember
    cases isMember
  have isMember : block.pointer ∈ liveOf live block.chunk :=
    mem_liveOf.mpr ⟨block, isLive, rfl, rfl⟩
  have counted := held.count.trans livePerm.length_eq
  rw [List.length_cons] at counted
  have inside : (state.chunk block.chunk).isInside block.pointer :=
    held.isInside wide (.inr isMember) (Nat.le_refl _) (by omega)
  have sameLive : ∀ other, other ≠ block.chunk → (liveOf rest other).Perm (liveOf live other) := by
    intro other different
    have mapped := (perm.filter fun target => target.chunk = other).map Block.pointer
    have consed := liveOf_cons block rest other
    rw [if_neg (Ne.symm different)] at consed
    rw [← consed]
    exact mapped.symm
  let freed : MemoryChunk := { state.chunk block.chunk with
    freeList := block.pointer
    usedCount := (state.chunk block.chunk).usedCount - 1 }
  have heldFreed : Held (storePointer state.memory block.pointer
      (state.chunk block.chunk).freeList) freed (blockSize block.allocator)
      (fixedSize / blockSize block.allocator) (liveOf rest block.chunk)
      (block.pointer :: starts) := by
    refine ⟨held.nonzero, held.dataEnd, held.fits, ?_, ?_⟩
    · have isEnd := held.dataEnd
      have fits := held.fits
      exact (held.slab.perm livePerm.symm).put wide (by omega) held.nonzero (by omega)
    · change (state.chunk block.chunk).usedCount - 1 = _
      omega
  have frame : ∀ other, other ≠ block.chunk → ∀ place, (state.chunk other).isInside place →
      storePointer state.memory block.pointer (state.chunk block.chunk).freeList place =
        state.memory place := by
    intro other different place otherInside
    apply storeBytes_outside
    by_contra within
    have placeInside := held.isInside wide (.inr isMember)
      (show block.pointer ≤ place by omega) (by omega)
    exact inv.not_isInside different placeInside otherInside
  have restLive : ∀ target ∈ rest, fixedAllocator target.size = some target.allocator ∧
      target.chunk.chunkChunk ∈ state.chunkChunks target.allocator := fun target isRest =>
    inv.live target (perm.mem_iff.mpr (List.mem_cons_of_mem _ isRest))
  have heap := inv.heap block.chunk
  rw [and_iff_right held.nonzero] at heap
  have length : (liveOf rest block.chunk).length = freed.usedCount := by
    change _ = (state.chunk block.chunk).usedCount - 1
    omega
  unfold MyMicroAllocator.deallocateChunk
  rw [if_neg (by rw [not_or, not_not]; exact ⟨by omega, inside⟩)]
  by_cases last : freed.usedCount = 0 ∧ freed.myHeap
  · rw [if_pos last]
    have noneLive : liveOf rest block.chunk = [] :=
      List.length_eq_zero_iff.mp (length.trans last.1)
    let vacant : MemoryChunk :=
      { freed with myHeap := false, data := 0, dataEnd := 0, freeList := 0 }
    have idem : Function.update (Function.update state.chunk block.chunk freed) block.chunk
        vacant = Function.update state.chunk block.chunk vacant := Function.update_idem ..
    have nextInv := @Inv.setChunk fixedSize state live rest block.chunk block.allocator inv member
      vacant (storePointer state.memory block.pointer (state.chunk block.chunk).freeList)
      (.inl ⟨rfl, rfl, last.1, rfl, noneLive⟩) frame sameLive
      (fun _ _ data => absurd rfl data) restLive (by simp [vacant])
    refine ⟨_, rfl, ?_, ?_, ?_, ?_⟩
    · refine ⟨?_, ?_, ?_, nextInv.owner, nextInv.inside, nextInv.current, nextInv.live, ?_⟩
      all_goals unfold MyMicroAllocator.setChunk MyMicroAllocator.removeMicroChunk; dsimp only
      · exact idem.symm ▸ nextInv.chunks
      · exact idem.symm ▸ nextInv.others
      · exact idem.symm ▸ nextInv.apart
      · exact idem.symm ▸ nextInv.heap
    · intro other different
      exact (congrFun idem other).trans (Function.update_of_ne different _ _)
    · change (Function.update (Function.update state.chunk block.chunk freed) block.chunk vacant
        block.chunk).data = 0 ↔ _
      rw [Function.update_self]
      exact iff_of_true rfl ⟨noneLive, heap.mp last.2⟩
    · change (Function.update (Function.update state.chunk block.chunk freed) block.chunk vacant
        block.chunk).data ≠ 0 → _
      rw [Function.update_self]
      exact fun data => absurd rfl data
  · rw [if_neg last]
    have nextInv := @Inv.setChunk fixedSize state live rest block.chunk block.allocator inv member
      freed (storePointer state.memory block.pointer (state.chunk block.chunk).freeList)
      (.inr ⟨_, heldFreed⟩) frame sameLive
      (fun other different => inv.apart block.chunk other (Ne.symm different)) restLive
      (inv.heap block.chunk)
    refine ⟨_, rfl, nextInv, ?_, ?_, ?_⟩
    · intro other different
      exact Function.update_of_ne different _ _
    · change (Function.update state.chunk block.chunk freed block.chunk).data = 0 ↔ _
      rw [Function.update_self]
      refine iff_of_false held.nonzero ?_
      rintro ⟨noneLive, notPrimary⟩
      rw [noneLive] at length
      exact last ⟨length.symm, heap.mpr notPrimary⟩
    · change _ → (Function.update state.chunk block.chunk freed block.chunk).data = _
      rw [Function.update_self]
      exact fun _ => rfl

end MallocSurvey.MicroAllocator
