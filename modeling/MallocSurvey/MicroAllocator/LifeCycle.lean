import MallocSurvey.MicroAllocator.Allocation

/-! # The life cycle of the chunks -/

namespace MallocSurvey.MicroAllocator

open Library

variable {fixedSize chunkBase : Nat}

/-! ## Construction -/

section

variable {state : MyMicroAllocator} {live : List Block} {name : ChunkName}

theorem Inv.held (inv : Inv fixedSize state live) (data : (state.chunk name).data ≠ 0) :
    ∃ allocator starts, name.chunkChunk ∈ state.chunkChunks allocator ∧
      Held state.memory (state.chunk name) (blockSize allocator)
        (fixedSize / blockSize allocator) (liveOf live name) starts := by
  by_cases outside : ∃ allocator, name.chunkChunk ∈ state.chunkChunks allocator
  · obtain ⟨allocator, member⟩ := outside
    rcases inv.chunks allocator name member with vacant | ⟨starts, held⟩
    · exact absurd vacant.data data
    · exact ⟨allocator, starts, member, held⟩
  · rw [inv.others name (not_exists.mp outside)] at data
    exact absurd rfl data

theorem inv_blank (memory : Memory) : Inv fixedSize (.blank memory) [] where
  chunks _ _ _ := .inl ⟨rfl, rfl, rfl, rfl, rfl⟩
  others _ _ := rfl
  apart _ _ _ data := absurd rfl data
  owner left right chunkChunk inLeft inRight := by
    have isLeft := List.mem_singleton.mp inLeft
    have isRight := List.mem_singleton.mp inRight
    exact ChunkChunk.inside.inj (isLeft.symm.trans isRight)
  inside _ := ⟨[], rfl⟩
  current _ := List.mem_singleton.mpr rfl
  live _ member := by cases member
  heap _ := iff_of_false Bool.false_ne_true fun data => data.1 rfl

/-- The memory of the fixed allocators is laid out one after another. -/
theorem initFixed_spec {next : MyMicroAllocator} {rest : List (Fin maxAllocators)} :
    ∀ {state : MyMicroAllocator} {chunkBase : Nat}, Inv fixedSize state [] →
      (∀ name, (state.chunk name).data ≠ 0 → (state.chunk name).dataEnd ≤ chunkBase) →
      (∀ allocator ∈ rest, (state.chunk (primary allocator)).data = 0) → rest.Nodup →
      chunkBase ≠ 0 → chunkBase + fixedSize * rest.length ≤ 2 ^ 64 →
      MyMicroAllocator.initFixed fixedSize rest chunkBase state = some next →
      Inv fixedSize next [] ∧ Retains state next ∧
        ∀ allocator ∈ rest, (next.chunk (primary allocator)).data ≠ 0 ∧
          0 < fixedSize / blockSize allocator := by
  induction rest with
  | nil =>
      intro state chunkBase inv _ _ _ _ _ result
      cases result
      exact ⟨inv, fun _ _ => rfl, fun _ member => by cases member⟩
  | cons allocator rest induction =>
      intro state chunkBase inv below empty nodup nonzero fits result
      obtain ⟨absent, restNodup⟩ := List.nodup_cons.mp nodup
      rw [List.length_cons, Nat.mul_succ] at fits
      have fitting := Nat.mul_div_le fixedSize (blockSize allocator)
      unfold MyMicroAllocator.initFixed MyMicroAllocator.initChunk MemoryChunk.init at result
      by_cases noRoom : fixedSize / blockSize allocator = 0
      · rw [if_pos noRoom] at result
        cases result
      rw [if_neg noRoom] at result
      simp only [Option.bind_eq_bind, Option.bind_some, pure] at result
      have isEmpty := empty allocator List.mem_cons_self
      obtain ⟨rest', isInside⟩ := inv.inside allocator
      have member : (primary allocator).chunkChunk ∈ state.chunkChunks allocator := by
        rw [isInside]
        exact List.mem_cons_self
      have fresh : ∀ name, (state.chunk name).data ≠ 0 →
          Apart chunkBase (blockSize allocator * (fixedSize / blockSize allocator))
            (state.chunk name).data ((state.chunk name).dataEnd - (state.chunk name).data) := by
        intro name data
        obtain ⟨_, _, _, held⟩ := inv.held data
        have isEnd := held.dataEnd
        have isBelow := below name data
        unfold Apart
        omega
      have heap : (state.chunk (primary allocator)).myHeap = true ↔
          ∀ other, primary allocator ≠ primary other := by
        rw [inv.heap]
        exact iff_of_false (fun data => data.1 isEmpty) fun different => different allocator rfl
      have filled := inv.fill member isEmpty (Nat.pos_of_ne_zero noRoom) nonzero (by omega)
        fresh heap
      have retains := @retains_setChunk state (primary allocator)
        { state.chunk (primary allocator) with
          chunkSize := blockSize allocator
          data := chunkBase
          dataEnd := chunkBase + blockSize allocator * (fixedSize / blockSize allocator)
          freeList := chunkBase } fun data => absurd isEmpty data
      have stillBelow : ∀ name, (Function.update state.chunk (primary allocator)
          { state.chunk (primary allocator) with
            chunkSize := blockSize allocator
            data := chunkBase
            dataEnd := chunkBase + blockSize allocator * (fixedSize / blockSize allocator)
            freeList := chunkBase } name).data ≠ 0 →
          (Function.update state.chunk (primary allocator)
          { state.chunk (primary allocator) with
            chunkSize := blockSize allocator
            data := chunkBase
            dataEnd := chunkBase + blockSize allocator * (fixedSize / blockSize allocator)
            freeList := chunkBase } name).dataEnd ≤ chunkBase + fixedSize := by
        intro name data
        by_cases same : name = primary allocator
        · subst same
          rw [Function.update_self]
          exact Nat.add_le_add_left fitting _
        · rw [Function.update_of_ne same] at data ⊢
          exact Nat.le_add_right_of_le (below name data)
      have stillEmpty : ∀ other ∈ rest, (Function.update state.chunk (primary allocator)
          { state.chunk (primary allocator) with
            chunkSize := blockSize allocator
            data := chunkBase
            dataEnd := chunkBase + blockSize allocator * (fixedSize / blockSize allocator)
            freeList := chunkBase } (primary other)).data = 0 := by
        intro other isRest
        have different : primary other ≠ primary allocator := by
          intro same
          have sameAllocator : other = allocator :=
            ChunkChunk.inside.inj (ChunkName.mk.inj same).1
          exact absent (sameAllocator ▸ isRest)
        rw [Function.update_of_ne different]
        exact empty other (List.mem_cons_of_mem _ isRest)
      obtain ⟨nextInv, nextRetains, primaries⟩ := induction filled stillBelow stillEmpty restNodup
        (by omega) (by omega) result
      refine ⟨nextInv, ?_, ?_⟩
      · intro name data
        have same := retains name data
        refine (nextRetains name ?_).trans same
        exact fun zero => data (same.symm.trans zero)
      · intro other isOther
        rcases List.mem_cons.mp isOther with rfl | isRest
        · refine ⟨?_, Nat.pos_of_ne_zero noRoom⟩
          have isBase : (Function.update state.chunk (primary other)
              { state.chunk (primary other) with
                chunkSize := blockSize other
                data := chunkBase
                dataEnd := chunkBase + blockSize other * (fixedSize / blockSize other)
                freeList := chunkBase } (primary other)).data = chunkBase := by
            rw [Function.update_self]
          have kept := nextRetains (primary other) (fun zero => nonzero (isBase.symm.trans zero))
          rw [kept]
          exact fun zero => nonzero (isBase.symm.trans zero)
        · exact primaries other isRest

end

theorem new_spec {memory : Memory} {micro : MyMicroAllocator} (nonzero : chunkBase ≠ 0)
    (fits : chunkBase + fixedSize * maxAllocators ≤ 2 ^ 64)
    (result : MyMicroAllocator.new memory fixedSize chunkBase = some micro) :
    Inv fixedSize micro [] ∧ Ready fixedSize micro := by
  obtain ⟨inv, _, primaries⟩ := initFixed_spec (inv_blank memory)
    (fun name data => absurd rfl data) (fun _ _ => rfl) (List.nodup_finRange _) nonzero
    (by rw [List.length_finRange]; exact fits) result
  exact ⟨inv, fun allocator => (primaries allocator (List.mem_finRange _)).1,
    fun allocator => (primaries allocator (List.mem_finRange _)).2⟩

/-! ## What holds of the chunks -/

/-- The live blocks in the memory of a chunk. -/
def blocksIn (state : State) (name : ChunkName) : List Block :=
  state.live.filter fun block => (state.micro.chunk name).isInside block.pointer

/-- A chunk that is not the first one of an allocator. -/
def IsOverflow (name : ChunkName) : Prop := ∀ allocator, name ≠ primary allocator

/-- The live blocks are apart and large enough, each lies in a chunk linked to its
allocator and in no other one, and the chunks count their live blocks. -/
structure ChunksKept (state : State) : Prop where
  apart : state.live.Pairwise fun left right =>
    Apart left.pointer (blockSize left.allocator) right.pointer (blockSize right.allocator)
  large : ∀ block ∈ state.live, block.pointer ≠ 0 ∧
    fixedAllocator block.size = some block.allocator ∧ block.size ≤ blockSize block.allocator
  inChunk : ∀ block ∈ state.live, ∀ place, block.pointer ≤ place →
    place < block.pointer + blockSize block.allocator →
    ∀ name, (state.micro.chunk name).isInside place ↔ name = block.chunk
  linked : ∀ block ∈ state.live, (state.micro.chunk block.chunk).data ≠ 0 ∧
    block.chunk.chunkChunk ∈ state.micro.chunkChunks block.allocator
  counted : ∀ name, (state.micro.chunk name).usedCount = (blocksIn state name).length

/-- Just an overflow chunk whose only live block is freed loses its memory. -/
def ReleasesLast (state : State) (event : Event) (next : State) : Prop :=
  ∀ name, (state.micro.chunk name).data ≠ 0 →
    ((next.micro.chunk name).data = 0 ↔
      IsOverflow name ∧ ∃ index block, event = .free index ∧
        state.live[index]? = some block ∧ blocksIn state name = [block])

/-- The heap has no memory for the event. -/
def HeapFails : Event → Prop
  | .malloc _ mcc answer => answer = 0 ∨ mcc = 0
  | .free _ | .write _ _ => False

section

variable {state : MyMicroAllocator} {live : List Block}

theorem Inv.isInside_iff (inv : Inv fixedSize state live) {block : Block} (isLive : block ∈ live)
    {place : Nat} (above : block.pointer ≤ place)
    (below : place < block.pointer + blockSize block.allocator) (name : ChunkName) :
    (state.chunk name).isInside place ↔ name = block.chunk := by
  have member : block.pointer ∈ liveOf live block.chunk :=
    mem_liveOf.mpr ⟨block, isLive, rfl, rfl⟩
  have inside : (state.chunk block.chunk).isInside place := by
    rcases inv.chunks block.allocator block.chunk (inv.live block isLive).2 with
      vacant | ⟨starts, held⟩
    · rw [vacant.live] at member
      cases member
    · exact held.isInside (blockSize_ge _) (.inr member) above below
  constructor
  · intro isInside
    by_contra different
    exact inv.not_isInside different inside isInside
  · intro same
    exact same ▸ inside

theorem Inv.filter_isInside (inv : Inv fixedSize state live) (name : ChunkName) :
    live.filter (fun block => (state.chunk name).isInside block.pointer) =
      live.filter fun block => block.chunk = name := by
  apply List.filter_congr
  intro block isLive
  have wide := blockSize_ge block.allocator
  rw [decide_eq_decide, inv.isInside_iff isLive (Nat.le_refl _) (by omega), eq_comm]

/-- The live blocks of all chunks are apart. -/
theorem Inv.live_apart (inv : Inv fixedSize state live) :
    live.Pairwise fun left right =>
      Apart left.pointer (blockSize left.allocator) right.pointer (blockSize right.allocator) := by
  have nodup : ∀ name : ChunkName, (liveOf live name).Nodup := by
    intro name
    by_cases outside : ∃ allocator, name.chunkChunk ∈ state.chunkChunks allocator
    · obtain ⟨allocator, member⟩ := outside
      rcases inv.chunks allocator name member with vacant | ⟨starts, held⟩
      · rw [vacant.live]
        exact List.nodup_nil
      · exact (List.nodup_append.mp (held.slab.nodup (by have wide := blockSize_ge allocator; omega))).2.1
    · have empty : liveOf live name = [] := by
        rw [List.eq_nil_iff_forall_not_mem]
        intro start member
        obtain ⟨block, isLive, isName, _⟩ := mem_liveOf.mp member
        exact outside ⟨_, isName ▸ (inv.live block isLive).2⟩
      rw [empty]
      exact List.nodup_nil
  have distinct : live.Pairwise fun left right =>
      left.chunk = right.chunk → left.pointer ≠ right.pointer := by
    rw [List.pairwise_iff_forall_sublist]
    intro left right sublist sameChunk
    have both := (sublist.filter fun block => block.chunk = right.chunk).map Block.pointer
    simp only [List.filter_cons, sameChunk, decide_true, if_true, List.filter_nil, List.map_cons,
      List.map_nil] at both
    have pair := (nodup right.chunk).sublist both
    simpa using pair
  apply distinct.imp_of_mem
  intro left right leftLive rightLive different
  by_contra overlap
  have wideLeft := blockSize_ge left.allocator
  have wideRight := blockSize_ge right.allocator
  have common : ∃ place, (left.pointer ≤ place ∧
      place < left.pointer + blockSize left.allocator) ∧
      right.pointer ≤ place ∧ place < right.pointer + blockSize right.allocator := by
    unfold Apart at overlap
    exact ⟨max left.pointer right.pointer, by omega, by omega⟩
  obtain ⟨place, inLeft, inRight⟩ := common
  have sameChunk : left.chunk = right.chunk :=
    (inv.isInside_iff rightLive inRight.1 inRight.2 left.chunk).mp
      ((inv.isInside_iff leftLive inLeft.1 inLeft.2 left.chunk).mpr rfl)
  have leftMember := (inv.live left leftLive).2
  have sameAllocator : left.allocator = right.allocator := by
    refine inv.owner _ _ _ leftMember ?_
    rw [sameChunk]
    exact (inv.live right rightLive).2
  have isLeft : left.pointer ∈ liveOf live right.chunk :=
    mem_liveOf.mpr ⟨left, leftLive, sameChunk, rfl⟩
  have isRight : right.pointer ∈ liveOf live right.chunk :=
    mem_liveOf.mpr ⟨right, rightLive, rfl, rfl⟩
  rcases inv.chunks right.allocator right.chunk (inv.live right rightLive).2 with
    vacant | ⟨starts, held⟩
  · rw [vacant.live] at isRight
    cases isRight
  · rw [sameAllocator] at overlap
    exact overlap (run_apart (held.slab.mem_run (.inr isLeft)) (held.slab.mem_run (.inr isRight))
      (different sameChunk))

end

/-! ## Every run -/

def Kept (fixedSize : Nat) (state : State) : Prop :=
  Inv fixedSize state.micro state.live ∧ Ready fixedSize state.micro

theorem Inv.chunksKept {state : State} (inv : Inv fixedSize state.micro state.live) :
    ChunksKept state where
  apart := inv.live_apart
  large := by
    intro block isLive
    obtain ⟨isAllocator, member⟩ := inv.live block isLive
    refine ⟨?_, isAllocator, fixedAllocator_size isAllocator⟩
    have isMember : block.pointer ∈ liveOf state.live block.chunk :=
      mem_liveOf.mpr ⟨block, isLive, rfl, rfl⟩
    rcases inv.chunks _ _ member with vacant | ⟨starts, held⟩
    · rw [vacant.live] at isMember
      cases isMember
    · have bounds := run_bounds (held.slab.mem_run (.inr isMember))
      have data := held.nonzero
      omega
  inChunk block isLive place above below name := inv.isInside_iff isLive above below name
  linked := by
    intro block isLive
    have wide := blockSize_ge block.allocator
    exact ⟨inv.data_of_isInside ((inv.isInside_iff isLive (Nat.le_refl _) (by omega) _).mpr rfl),
      (inv.live block isLive).2⟩
  counted := by
    intro name
    unfold blocksIn
    rw [inv.filter_isInside]
    by_cases outside : ∃ allocator, name.chunkChunk ∈ state.micro.chunkChunks allocator
    · obtain ⟨allocator, member⟩ := outside
      have length : (liveOf state.live name).length =
          (state.live.filter fun block => block.chunk = name).length := List.length_map ..
      rw [← length]
      rcases inv.chunks allocator name member with vacant | ⟨starts, held⟩
      · rw [vacant.live]
        exact vacant.count
      · exact held.count
    · rw [inv.others name (not_exists.mp outside)]
      refine (List.length_eq_zero_iff.mpr (List.filter_eq_nil_iff.mpr ?_)).symm
      intro block isLive isName
      have isChunk := (inv.live block isLive).2
      rw [of_decide_eq_true isName] at isChunk
      exact outside ⟨_, isChunk⟩

/-- A write to a live block leaves the free lists. -/
theorem Inv.write {state : MyMicroAllocator} {live : List Block}
    (inv : Inv fixedSize state live) {block : Block} (isLive : block ∈ live) {place : Nat}
    (above : block.pointer ≤ place) (below : place < block.pointer + blockSize block.allocator)
    (value : UInt8) :
    Inv fixedSize { state with memory := Function.update state.memory place value } live :=
  { inv with
    others := inv.others
    apart := inv.apart
    live := inv.live
    heap := inv.heap
    chunks := by
      intro allocator name member
      have wide := blockSize_ge allocator
      refine (inv.chunks allocator name member).imp id ?_
      rintro ⟨starts, held⟩
      by_cases isName : name = block.chunk
      · have isMember : block.pointer ∈ liveOf live name :=
          mem_liveOf.mpr ⟨block, isLive, isName.symm, rfl⟩
        have sameAllocator : block.allocator = allocator :=
          inv.owner _ _ _ (inv.live block isLive).2 (isName ▸ member)
        rw [sameAllocator] at below
        exact ⟨starts, { held with
          slab := held.slab.write wide (by omega) isMember above below value }⟩
      · refine ⟨starts, { held with slab := held.slab.congr_outside wide ?_ }⟩
        intro byte byteAbove byteBelow
        apply Function.update_of_ne
        rintro rfl
        have isEnd := held.dataEnd
        exact isName ((inv.isInside_iff isLive above below name).mp ⟨byteAbove, by omega⟩) }

theorem step_malloc (state : State) (size mcc answer : Nat) :
    step fixedSize state (.malloc size mcc answer) = (do
      let allocator ← fixedAllocator size
      let (ret, micro) ← state.micro.malloc fixedSize size mcc answer
      return State.mk micro (⟨ret, size, allocator, micro.current allocator⟩ :: state.live)) := rfl

theorem step_free {state : State} {index : Nat} {block : Block}
    (inv : Inv fixedSize state.micro state.live) (isBlock : state.live[index]? = some block) :
    ∃ micro, step fixedSize state (.free index) = some ⟨micro, state.live.eraseIdx index⟩ ∧
      Freed fixedSize state.micro micro (state.live.eraseIdx index) block.chunk := by
  obtain ⟨micro, freed, outcome⟩ := inv.deallocateChunk_spec (liveOf_perm isBlock)
  refine ⟨micro, ?_, outcome⟩
  simp only [step, isBlock, Option.bind_eq_bind, Option.bind_some]
  change (state.micro.deallocateChunk block.chunk block.pointer).bind _ = _
  rw [freed]
  rfl

/-- What an event leads to. -/
theorem step_kept {state next : State} {event : Event} (kept : Kept fixedSize state)
    (enabled : Enabled fixedSize state event) (result : step fixedSize state event = some next) :
    Kept fixedSize next ∧ ReleasesLast state event next := by
  obtain ⟨inv, ready⟩ := kept
  cases event with
  | malloc size mcc answer =>
      obtain ⟨allocator, isAllocator, fresh, answers⟩ := enabled
      have outcome := Asked.malloc_spec ⟨inv, ready, isAllocator, answers⟩ fresh
      rw [step_malloc, isAllocator] at result
      simp only [Option.bind_eq_bind, Option.bind_some] at result
      generalize state.micro.malloc fixedSize size mcc answer = answered at result outcome
      cases outcome with
      | failed _ => cases result
      | @served ret micro nonzero nextInv retains =>
          cases result
          refine ⟨⟨nextInv, retains.ready ready⟩, ?_⟩
          intro name data
          refine iff_of_false (fun zero => data ((retains name data).symm.trans zero)) ?_
          rintro ⟨_, _, _, isFree, _⟩
          cases isFree
  | free index =>
      have inRange : index < state.live.length := enabled
      have isBlock := List.getElem?_eq_getElem inRange
      obtain ⟨micro, freed, outcome⟩ := step_free inv isBlock
      cases freed.symm.trans result
      refine ⟨⟨outcome.inv, ?_, ready.room⟩, ?_⟩
      · intro allocator
        by_cases same : primary allocator = state.live[index].chunk
        · intro zero
          rw [same] at zero
          exact (outcome.released.mp zero).2 allocator same.symm
        · rw [outcome.others _ same]
          exact ready.primary allocator
      · intro name data
        change (micro.chunk name).data = 0 ↔ _
        have isChunk : ∀ block : Block, state.live[index]? = some block →
            blocksIn state name = [block] → name = state.live[index].chunk := by
          intro block isFreed single
          rw [isBlock] at isFreed
          have isMember : block ∈ blocksIn state name := by
            rw [single]
            exact List.mem_singleton_self block
          unfold blocksIn at isMember
          rw [inv.filter_isInside, List.mem_filter] at isMember
          rw [Option.some.inj isFreed]
          exact (of_decide_eq_true isMember.2).symm
        by_cases same : name = state.live[index].chunk
        · subst same
          rw [outcome.released, and_comm]
          apply and_congr_right
          intro _
          have perm : (blocksIn state state.live[index].chunk).Perm (state.live[index] ::
              (state.live.eraseIdx index).filter fun block =>
                block.chunk = state.live[index].chunk) := by
            unfold blocksIn
            rw [inv.filter_isInside]
            have filtered := (liveOf_perm isBlock).filter fun block =>
              block.chunk = state.live[index].chunk
            simpa using filtered
          unfold liveOf
          rw [List.map_eq_nil_iff]
          constructor
          · intro empty
            rw [empty] at perm
            exact ⟨index, _, rfl, isBlock, List.perm_singleton.mp perm⟩
          · rintro ⟨_, block, _, _, single⟩
            have length := perm.length_eq
            simp only [single, List.length_cons, List.length_nil] at length
            exact List.length_eq_zero_iff.mp (by omega)
        · rw [outcome.others name same]
          refine iff_of_false data ?_
          rintro ⟨_, _, block, isFree, isFreed, single⟩
          cases isFree
          exact same (isChunk block isFreed single)
  | write place value =>
      cases result
      obtain ⟨block, isLive, above, below⟩ := enabled
      refine ⟨⟨inv.write isLive above below value, ⟨ready.primary, ready.room⟩⟩, ?_⟩
      intro name data
      refine iff_of_false data ?_
      rintro ⟨_, _, _, isFree, _⟩
      cases isFree

theorem reachable_kept {state : State}
    (reached : (machine fixedSize chunkBase).Reachable (fun _ _ => True) state) :
    Kept fixedSize state := by
  apply Machine.Reachable.invariant _ _ reached
  · rintro state ⟨nonzero, fits, memory, micro, constructed, rfl⟩
    exact new_spec nonzero fits constructed
  · intro state event next kept enabled _ result
    exact (step_kept kept enabled result).1

/-- An event fails only when the heap does. -/
theorem Kept.fails {state : State} {event : Event} (kept : Kept fixedSize state)
    (enabled : Enabled fixedSize state event) (fault : step fixedSize state event = none) :
    HeapFails event := by
  obtain ⟨inv, ready⟩ := kept
  cases event with
  | malloc size mcc answer =>
      obtain ⟨allocator, isAllocator, fresh, answers⟩ := enabled
      have outcome := Asked.malloc_spec ⟨inv, ready, isAllocator, answers⟩ fresh
      rw [step_malloc, isAllocator] at fault
      simp only [Option.bind_eq_bind, Option.bind_some] at fault
      generalize state.micro.malloc fixedSize size mcc answer = answered at fault outcome
      cases outcome with
      | failed refused => exact refused
      | served _ _ _ => cases fault
  | free index =>
      have isBlock := List.getElem?_eq_getElem (show index < state.live.length from enabled)
      obtain ⟨_, freed, _⟩ := step_free inv isBlock
      cases freed.symm.trans fault
  | write place value => cases fault

/-- In every reachable state the chunks are kept, a chunk is released just when its last
block is freed, and an event fails only when the heap does. -/
theorem chunk_lifeCycle {state : State}
    (reached : (machine fixedSize chunkBase).Reachable (fun _ _ => True) state) :
    ChunksKept state ∧
      (∀ event next, Enabled fixedSize state event →
        step fixedSize state event = some next → ReleasesLast state event next) ∧
      ∀ event, Enabled fixedSize state event → step fixedSize state event = none →
        HeapFails event := by
  have kept := reachable_kept reached
  refine ⟨kept.1.chunksKept, ?_, ?_⟩
  · intro event next enabled result
    exact (step_kept kept enabled result).2
  · intro event enabled fault
    exact kept.fails enabled fault

/-- A block of a thousand bytes in the first chunk of the last allocator. -/
theorem chunk_lifeCycle_oneBlock :
    ∃ state, (machine 1024 4096).Reachable (fun _ _ => True) state ∧
      state.live.map Block.pointer = [20480] ∧ ChunksKept state ∧
      (∀ event next, Enabled 1024 state event → step 1024 state event = some next →
        ReleasesLast state event next) ∧
      ∀ event, Enabled 1024 state event → step 1024 state event = none → HeapFails event := by
  obtain ⟨micro, constructed, chunkChunks⟩ : ∃ micro,
      MyMicroAllocator.new (fun _ => 0) 1024 4096 = some micro ∧
        micro.chunkChunks = fun allocator => [.inside allocator] :=
    ⟨_, rfl, rfl⟩
  have start : (machine 1024 4096).Reachable (fun _ _ => True) ⟨micro, []⟩ :=
    .init ⟨by decide, by decide, _, micro, constructed, rfl⟩
  obtain ⟨next, stepped, pointers⟩ : ∃ next,
      step 1024 ⟨micro, []⟩ (.malloc 1000 0 0) = some next ∧
        next.live.map Block.pointer = [20480] := by
    cases Option.some.inj (show some micro = some _ from constructed.symm)
    refine ⟨_, rfl, ?_⟩
    decide +kernel
  have enabled : (machine 1024 4096).Enabled ⟨micro, []⟩ (.malloc 1000 0 0) := by
    refine ⟨16, by decide, ?_, .inl rfl⟩
    intro allocator member
    rw [chunkChunks] at member
    cases List.mem_singleton.mp member
  have reached := start.step enabled trivial stepped
  exact ⟨next, reached, pointers, chunk_lifeCycle reached⟩

end MallocSurvey.MicroAllocator
