import MallocSurvey.Winnie3.Registry

/-! # Pools from the start to a clean

A clean leaves the heads of the states as they are. It is the last one where it deleted
a chunk, and after it blocks may come only from sizes that had no free block. -/

namespace MallocSurvey.Winnie3

open Library

variable {pools : Pools} {live : List Block} {free : List (FreeBlock Nat)} {stale : Nat → Bool}
  {registered : List Nat} {chunks : Nat → List Nat} {size newChunk : Nat}

/-! ## A new chunk -/

theorem Blocks.registerFirst (blocks : Blocks pools live free stale) :
    Blocks (pools.registerFirst size) live free stale := by
  unfold Pools.registerFirst
  split
  · refine blocks.congr ?_ (fun _ _ => rfl) rfl
    intro other
    unfold Pools.register Pools.setState
    dsimp only
    rw [Function.update_apply]
    split
    · next same => rw [same]
    · rfl
  · exact blocks

theorem Blocks.chunkAdded (blocks : Blocks pools live free stale)
    (ok : ChunkOk ⟨newChunk, chunkSize + sizeofHeader⟩)
    (apart : ∀ region ∈ pools.allocated,
      Extent.Apart ⟨newChunk, chunkSize + sizeofHeader⟩ region) :
    Blocks (pools.chunkAdded size newChunk) live free stale where
  chained := by
    have sameHeads : heads (pools.chunkAdded size newChunk) stale = heads pools stale := by
      funext other
      unfold heads Pools.chunkAdded Pools.setState
      dsimp only
      rw [Function.update_apply]
      split
      · rfl
      · split
        · next same => rw [same]
        · rfl
    rw [sameHeads]
    apply blocks.chained.congr
    intro block isFree
    apply loadPointer_storePointer_apart
    obtain ⟨chunk, isChunk, inside⟩ :=
      blocks.inside _ (List.mem_append_right _ (List.mem_map_of_mem isFree))
    have isApart := apart chunk isChunk
    have wide := blocks.free_wide isFree
    have length := (blocks.chunkOk chunk isChunk).length
    simp only [Extent.Apart, Extent.Inside, storage, freeExtent, chunkSize, sizeofHeader,
      Apart] at *
    omega
  chunksApart := List.pairwise_cons.mpr ⟨apart, blocks.chunksApart⟩
  chunkOk := by
    intro chunk member
    rcases List.mem_cons.mp member with isNew | isOld
    · rw [isNew]
      exact ok
    · exact blocks.chunkOk chunk isOld
  apart := blocks.apart
  inside := by
    intro piece member
    obtain ⟨chunk, isChunk, inside⟩ := blocks.inside piece member
    exact ⟨chunk, List.mem_cons_of_mem _ isChunk, inside⟩
  liveOk := blocks.liveOk
  freeOk := blocks.freeOk

theorem firstFree_linkBlocks {start count : Nat} :
    ((Pools.linkBlocks size start (count + 1) pools).state size).firstFree = start := by
  induction count generalizing pools with
  | zero => simp [Pools.linkBlocks, Pools.Deallocate]
  | succ count induction => exact induction

/-- The blocks of a new chunk are free. -/
theorem Blocks.addChunk (blocks : Blocks pools live free stale)
    (wide : 8 ≤ size) (small : size ≤ useOperatorNew) (notStale : stale size = false)
    (ok : ChunkOk ⟨newChunk, chunkSize + sizeofHeader⟩)
    (apart : ∀ region ∈ pools.allocated,
      Extent.Apart ⟨newChunk, chunkSize + sizeofHeader⟩ region) :
    ∃ free, Blocks (pools.addChunk size newChunk) live free stale ∧
      ((pools.addChunk size newChunk).state size).firstFree ≠ 0 := by
  have fits : chunkSize / size * size ≤ chunkSize := Nat.div_mul_le_self chunkSize size
  have apartPieces : ∀ piece ∈ pieces live free,
      Extent.Apart ⟨newChunk + sizeofHeader, chunkSize / size * size⟩ piece := by
    intro piece member
    obtain ⟨chunk, isChunk, inside⟩ := blocks.inside piece member
    have length := (blocks.chunkOk chunk isChunk).length
    refine (apart chunk isChunk).parts ?_ ?_
    · exact ⟨Nat.le_add_right _ _, by simp only [sizeofHeader]; omega⟩
    · simp only [Extent.Inside, storage, sizeofHeader, chunkSize] at *
      omega
  have added : Blocks (pools.chunkAdded size newChunk) live free stale :=
    blocks.chunkAdded ok apart
  obtain ⟨after, linked⟩ := added.linkBlocks wide notStale List.mem_cons_self fits apartPieces
  refine ⟨after, linked, ?_⟩
  have some : 0 < chunkSize / size :=
    Nat.div_pos (Nat.le_trans small (by decide)) (Nat.lt_of_lt_of_le (by decide) wide)
  obtain ⟨count, isCount⟩ := Nat.exists_eq_succ_of_ne_zero (Nat.ne_of_gt some)
  rw [addChunk_eq, isCount, firstFree_linkBlocks]
  unfold sizeofHeader
  omega

/-! ## The invariant -/

structure Held (state : State) : Prop where
  blocks : ∃ free, Blocks state.pools state.live free state.stale
  registry : Registry state.pools state.registered
  lists : state.cleaned = false → ∃ chunks, ChunkLists state.pools state.registered chunks

/-- What keeps the events from the forgotten free lists, the deleted chunks and the
second registration of a state. -/
def Meets (state : State) : Event → Prop
  | .allocate sizeofT _ =>
      state.stale (poolSize sizeofT) = false ∧
        (state.Registers (poolSize sizeofT) → poolSize sizeofT ∉ state.registered)
  | .clean => state.cleaned = false
  | _ => True

theorem held_started {state : State} (started : Started state) : Held state where
  blocks := by
    refine ⟨[], ?_, ?_, ?_, ?_, ?_, ?_, ?_⟩
    · have noHeads : heads state.pools state.stale = fun _ => 0 := by
        funext size
        unfold heads
        rw [started.untouched]
        split
        · rfl
        · rfl
      rw [noHeads]
      exact Chained.initial
    · rw [started.allocated]
      exact .nil
    · rw [started.allocated]
      exact nofun
    · rw [started.live]
      exact .nil
    · rw [started.live]
      exact nofun
    · rw [started.live]
      exact nofun
    · exact nofun
  registry :=
    { queue := by rw [started.registered]; trivial
      first := by rw [started.registered, started.states]; rfl
      nodup := by rw [started.registered]; exact .nil
      sizes := by rw [started.registered]; exact nofun
      cleaner := by rw [started.registered]; exact nofun
      listed := by
        intro size nonzero
        rw [started.untouched] at nonzero
        exact absurd rfl nonzero }
  lists := by
    intro _
    refine ⟨fun _ => [], ?_, ?_, ?_⟩
    · intro size
      rw [started.untouched]
      rfl
    · intro _
      trivial
    · rw [started.allocated, started.registered]
      exact .nil

/-! ## `Allocate` -/

/-- The sizes that are registered after a call of `NewChunk`. -/
def listAfter (pools : Pools) (size : Nat) (registered : List Nat) : List Nat :=
  if (pools.state size).chunksHead = 0 then size :: registered else registered

theorem Registry.registerFirst (registry : Registry pools registered)
    (fresh : (pools.state size).chunksHead = 0 → size ∉ registered)
    (small : 0 < size ∧ size ≤ useOperatorNew) :
    Registry (pools.registerFirst size) (listAfter pools size registered) ∧
      size ∈ listAfter pools size registered := by
  unfold Pools.registerFirst listAfter
  split
  · next noChunks => exact ⟨registry.register (fresh noChunks) small, List.mem_cons_self⟩
  · next nonzero => exact ⟨registry, registry.listed size nonzero⟩

theorem ChunkLists.registerFirst (lists : ChunkLists pools registered chunks) :
    ChunkLists (pools.registerFirst size) (listAfter pools size registered) chunks := by
  unfold Pools.registerFirst listAfter
  split
  · next noChunks => exact lists.register noChunks
  · exact lists

theorem Registry.addChunk (registry : Registry pools registered) (member : size ∈ registered)
    (wide : 8 ≤ size) : Registry (pools.addChunk size newChunk) registered := by
  rw [addChunk_eq]
  exact (registry.chunkAdded member).frame
    (frame_linkBlocks wide (newChunk + sizeofHeader) (chunkSize / size))

theorem ChunkLists.addChunk (lists : ChunkLists pools registered chunks)
    (registry : Registry pools registered) (member : size ∈ registered) (wide : 8 ≤ size)
    (nonzero : newChunk ≠ 0) (chunkOk : ∀ chunk ∈ pools.allocated, ChunkOk chunk)
    (apart : ∀ region ∈ pools.allocated,
      Extent.Apart ⟨newChunk, chunkSize + sizeofHeader⟩ region) :
    ChunkLists (pools.addChunk size newChunk) registered
      (Function.update chunks size (newChunk :: chunks size)) := by
  have added := lists.chunkAdded registry member nonzero chunkOk apart
  rw [addChunk_eq]
  refine added.frame (registry.chunkAdded member)
    (frame_linkBlocks wide (newChunk + sizeofHeader) (chunkSize / size)) ?_
  intro region isRegion
  have fits : chunkSize / size * size ≤ chunkSize := Nat.div_mul_le_self chunkSize size
  rcases List.mem_cons.mp isRegion with isNew | isOld
  · rw [isNew]
    exact .inl (Nat.le_refl _)
  · have isApart := apart region isOld
    have length := (chunkOk region isOld).length
    simp only [Extent.Apart, Apart, chunkSize, sizeofHeader] at *
    omega

theorem take_fields (pools : Pools) (size other : Nat) :
    ((pools.take size).2.state other).next = (pools.state other).next ∧
    ((pools.take size).2.state other).cleaner = (pools.state other).cleaner ∧
    ((pools.take size).2.state other).chunksHead = (pools.state other).chunksHead := by
  unfold Pools.take Pools.setState
  dsimp only
  rw [Function.update_apply]
  split
  · next same =>
      rw [same]
      exact ⟨rfl, rfl, rfl⟩
  · exact ⟨rfl, rfl, rfl⟩

theorem Registry.take (registry : Registry pools registered) :
    Registry (pools.take size).2 registered :=
  registry.congr (fun other => (take_fields pools size other).1)
    (fun other => (take_fields pools size other).2.1)
    (fun other => (take_fields pools size other).2.2) rfl

theorem ChunkLists.take (lists : ChunkLists pools registered chunks)
    (registry : Registry pools registered) :
    ChunkLists (pools.take size).2 registered chunks :=
  lists.congr registry (fun other => (take_fields pools size other).2.2) rfl (fun _ _ => rfl)

/-- The first free block of the size is handed out. -/
theorem Blocks.takeFirst (blocks : Blocks pools live free stale) (notStale : stale size = false)
    (nonempty : (pools.state size).firstFree ≠ 0) :
    ∃ free, Blocks (pools.take size).2 (⟨(pools.take size).1, size⟩ :: live) free stale := by
  have head : heads pools stale size = (pools.state size).firstFree := by
    unfold heads
    rw [notStale]
    rfl
  obtain ⟨block, found, isHead⟩ := blocks.chained.firstOf_head (head ▸ nonempty)
  have taken := blocks.take notStale found
  rw [isHead, head] at taken
  exact ⟨_, taken⟩

theorem poolSize_bounds {sizeofT : Nat} (small : sizeofT ≤ useOperatorNew) :
    8 ≤ poolSize sizeofT ∧ poolSize sizeofT ≤ useOperatorNew := by
  unfold poolSize useOperatorNew at *
  split
  · next wide => exact ⟨wide, small⟩
  · exact ⟨Nat.le_refl 8, by decide⟩

/-- A chunk that `new char[]` may return. -/
theorem chunkOk_of_answers {allocated : List Extent} {answer : Nat} (nonzero : answer ≠ 0)
    (answers : Answers allocated answer) :
    ChunkOk ⟨answer, chunkSize + sizeofHeader⟩ ∧
      ∀ region ∈ allocated, Extent.Apart ⟨answer, chunkSize + sizeofHeader⟩ region := by
  obtain ⟨bound, apart⟩ := answers.resolve_left nonzero
  exact ⟨⟨nonzero, rfl, bound⟩, apart⟩

/-- The state after `Allocate` has taken a block of `pools`. -/
def State.served (state : State) (size : Nat) (pools : Pools) (registered : List Nat) : State :=
  { state with
    pools := (pools.take size).2
    live := ⟨(pools.take size).1, size⟩ :: state.live
    registered := registered }

inductive AllocateCases (state : State) (size answer : Nat) : State → Prop
  | thrown : (state.pools.state size).firstFree = 0 → answer = 0 →
      AllocateCases state size answer { state with
        pools := state.pools.registerFirst size
        registered := listAfter state.pools size state.registered }
  | grown : (state.pools.state size).firstFree = 0 → answer ≠ 0 →
      AllocateCases state size answer (state.served size
        ((state.pools.registerFirst size).addChunk size answer)
        (listAfter state.pools size state.registered))
  | taken : (state.pools.state size).firstFree ≠ 0 →
      AllocateCases state size answer (state.served size state.pools state.registered)

theorem allocate_cases (state : State) (size answer : Nat) :
    AllocateCases state size answer (state.allocate size answer) := by
  by_cases empty : (state.pools.state size).firstFree = 0
  · have isListed : (if state.Registers size then size :: state.registered
        else state.registered) = listAfter state.pools size state.registered := by
      unfold listAfter State.Registers
      simp only [empty, true_and]
    by_cases thrown : answer = 0
    · have isThrown : AllocateCases state size answer _ := .thrown empty thrown
      rw [← isListed] at isThrown
      unfold State.allocate Pools.Allocate
      rw [if_pos empty, if_pos thrown]
      exact isThrown
    · have isGrown : AllocateCases state size answer _ := .grown empty thrown
      rw [← isListed] at isGrown
      unfold State.allocate Pools.Allocate
      rw [if_pos empty, if_neg thrown]
      exact isGrown
  · have notRegistered : ¬ state.Registers size := fun registers => empty registers.1
    unfold State.allocate Pools.Allocate
    rw [if_neg empty, if_neg notRegistered]
    exact .taken empty

theorem Held.allocate {state : State} (held : Held state) {answer : Nat} (wide : 8 ≤ size)
    (small : size ≤ useOperatorNew) (answers : Answers state.pools.allocated answer)
    (notStale : state.stale size = false)
    (once : state.Registers size → size ∉ state.registered) :
    Held (state.allocate size answer) := by
  obtain ⟨free, blocks⟩ := held.blocks
  have registry : (state.pools.state size).firstFree = 0 →
      Registry (state.pools.registerFirst size) (listAfter state.pools size state.registered) ∧
        size ∈ listAfter state.pools size state.registered :=
    fun empty => held.registry.registerFirst (fun noChunks => once ⟨empty, noChunks⟩)
      ⟨Nat.lt_of_lt_of_le (by decide) wide, small⟩
  have result := allocate_cases state size answer
  generalize state.allocate size answer = next at result ⊢
  cases result with
  | thrown empty _ =>
      exact
        { blocks := ⟨free, blocks.registerFirst⟩
          registry := (registry empty).1
          lists := fun notCleaned =>
            let ⟨chunks, lists⟩ := held.lists notCleaned
            ⟨chunks, lists.registerFirst⟩ }
  | grown empty nonzero =>
      obtain ⟨registered, member⟩ := registry empty
      obtain ⟨ok, apart⟩ := chunkOk_of_answers nonzero answers
      have sameAllocated : (state.pools.registerFirst size).allocated = state.pools.allocated := by
        unfold Pools.registerFirst
        split
        · rfl
        · rfl
      rw [← sameAllocated] at apart
      obtain ⟨added, addedBlocks, nonempty⟩ :=
        blocks.registerFirst.addChunk wide small notStale ok apart
      exact
        { blocks := addedBlocks.takeFirst notStale nonempty
          registry := (registered.addChunk member wide).take
          lists := fun notCleaned =>
            let ⟨chunks, lists⟩ := held.lists notCleaned
            ⟨_, (lists.registerFirst.addChunk registered member wide nonzero
              blocks.registerFirst.chunkOk apart).take (registered.addChunk member wide)⟩ }
  | taken nonempty =>
      exact
        { blocks := blocks.takeFirst notStale nonempty
          registry := held.registry.take
          lists := fun notCleaned =>
            let ⟨chunks, lists⟩ := held.lists notCleaned
            ⟨chunks, lists.take held.registry⟩ }

/-! ## The other events -/

theorem Held.deallocate {state : State} (held : Held state) {index : Nat} {block : Block}
    (found : state.live[index]? = some block) :
    Held { state with
      pools := state.pools.Deallocate block.size block.start
      live := state.live.eraseIdx index } := by
  obtain ⟨free, blocks⟩ := held.blocks
  have isLive := List.mem_of_getElem? found
  have frame : Frame state.pools _ block.start (block.start + block.size) :=
    frame_deallocate (blocks.liveOk block isLive).1 block.start
  obtain ⟨chunk, isChunk, inside⟩ :=
    blocks.inside _ (List.mem_append_left _ (List.mem_map_of_mem isLive))
  exact
    { blocks := ⟨_, blocks.deallocate found⟩
      registry := held.registry.frame frame
      lists := by
        intro notCleaned
        obtain ⟨chunks, lists⟩ := held.lists notCleaned
        refine ⟨chunks, lists.frame held.registry frame ?_⟩
        intro region isRegion
        have apart := header_apart blocks.chunksApart blocks.chunkOk isRegion isChunk inside
        have wide := (blocks.liveOk block isLive).1
        simp only [Extent.Apart, word, Block.extent, Apart] at apart
        omega }

theorem Held.write {state : State} (held : Held state) {block : Block}
    (isLive : block ∈ state.live) {place : Nat} (above : block.start ≤ place)
    (below : place < block.start + block.size) (value : UInt8) :
    Held { state with pools := { state.pools with
      memory := Function.update state.pools.memory place value } } := by
  obtain ⟨free, blocks⟩ := held.blocks
  obtain ⟨chunk, isChunk, inside⟩ :=
    blocks.inside _ (List.mem_append_left _ (List.mem_map_of_mem isLive))
  exact
    { blocks := ⟨free, blocks.write isLive above below value⟩
      registry := held.registry.congr (fun _ => rfl) (fun _ => rfl) (fun _ => rfl) rfl
      lists := by
        intro notCleaned
        obtain ⟨chunks, lists⟩ := held.lists notCleaned
        refine ⟨chunks, lists.congr held.registry (fun _ => rfl) rfl ?_⟩
        intro region isRegion
        apply loadPointer_congr
        intro byte byteAbove byteBelow
        apply Function.update_of_ne
        have apart := header_apart blocks.chunksApart blocks.chunkOk isRegion isChunk inside
        have wide := (blocks.liveOk block isLive).1
        simp only [Extent.Apart, word, Block.extent, Apart] at apart
        omega }

/-- The first clean that finds chunks deletes them all. -/
theorem Held.clean {state : State} (held : Held state) (notCleaned : state.cleaned = false) :
    ∃ next, state.clean = some next ∧ next.pools.allocated = [] ∧ Held next := by
  obtain ⟨chunks, lists⟩ := held.lists notCleaned
  have cleaned := CleanThreadAllocatorState_spec held.registry lists
  unfold State.clean
  rw [cleaned]
  refine ⟨_, rfl, rfl, ?_⟩
  exact
    { blocks := by
        refine ⟨[], ?_, .nil, nofun, .nil, nofun, nofun, nofun⟩
        have noHeads : heads { state.pools with allocated := [] } (fun size =>
            state.stale size || (state.pools.state size).firstFree != 0) = fun _ => 0 := by
          funext size
          unfold heads
          split
          · rfl
          · next fresh =>
              simp only [Bool.or_eq_true, bne_iff_ne, ne_eq, not_or, not_not] at fresh
              exact fresh.2
        rw [noHeads]
        exact Chained.initial
      registry := held.registry.congr (fun _ => rfl) (fun _ => rfl) (fun _ => rfl) rfl
      lists := by
        intro stillNot
        have none : state.pools.allocated = [] := by
          simpa [notCleaned] using stillNot
        refine ⟨chunks, lists.head, lists.linked, ?_⟩
        have all := lists.all
        rw [none] at all
        exact all }

/-! ## Runs -/

theorem step_held {state next : State} {event : Event} (held : Held state)
    (enabled : machine.Enabled state event) (meets : Meets state event)
    (result : machine.step state event = some next) : Held next := by
  cases event with
  | allocate sizeofT answer =>
      cases result
      have bounds := poolSize_bounds enabled.2.1
      exact held.allocate bounds.1 bounds.2 enabled.2.2 meets.1 meets.2
  | deallocate index =>
      obtain ⟨block, found, isNext⟩ := Option.bind_eq_some_iff.mp result
      cases isNext
      exact held.deallocate found
  | clean =>
      obtain ⟨cleaned, isCleaned, _, heldAfter⟩ := held.clean meets
      cases isCleaned.symm.trans result
      exact heldAfter
  | write place value =>
      cases result
      obtain ⟨block, isLive, above, below⟩ := enabled
      exact held.write isLive above below value

theorem Held.safe {state : State} (held : Held state) : machine.Safe Meets state := by
  intro event enabled meets fault
  cases event with
  | allocate sizeofT answer => cases fault
  | deallocate index =>
      have found := List.getElem?_eq_getElem (show index < state.live.length from enabled)
      change (state.live[index]?).bind _ = none at fault
      rw [found] at fault
      cases fault
  | clean =>
      obtain ⟨cleaned, isCleaned, _⟩ := held.clean meets
      cases isCleaned.symm.trans fault
  | write place value => cases fault

/-- The blocks in use are parts of chunks that no clean has deleted, and the list of the
registered states ends and has none twice. -/
structure Survived (state : State) : Prop where
  inChunk : ∀ block ∈ state.live,
    ∃ chunk ∈ state.pools.allocated, block.extent.Inside (storage chunk)
  apart : (state.live.map Block.extent).Pairwise Extent.Apart
  registration : ∃ sizes, sizes.Nodup ∧ state.pools.states = sizes.head? ∧
    Queue (fun size => (state.pools.state size).next) sizes

theorem Held.survived {state : State} (held : Held state) : Survived state := by
  obtain ⟨free, blocks⟩ := held.blocks
  exact
    { inChunk := fun block isLive =>
        blocks.inside _ (List.mem_append_left _ (List.mem_map_of_mem isLive))
      apart := (List.pairwise_append.mp blocks.apart).1
      registration := ⟨state.registered, held.registry.nodup, held.registry.first,
        held.registry.queue⟩ }

section Examples

instance (state : State) : DecidablePred (machine.Enabled state)
  | .allocate sizeofT answer =>
      inferInstanceAs (Decidable (0 < sizeofT ∧ sizeofT ≤ useOperatorNew ∧
        (answer = 0 ∨ answer + (chunkSize + sizeofHeader) ≤ 2 ^ 64 ∧
          ∀ region ∈ state.pools.allocated,
            (chunkSize + sizeofHeader = 0 ∨ region.length = 0 ∨
              answer + (chunkSize + sizeofHeader) ≤ region.start ∨
              region.start + region.length ≤ answer))))
  | .deallocate index => inferInstanceAs (Decidable (index < state.live.length))
  | .clean => .isTrue trivial
  | .write place _ =>
      inferInstanceAs (Decidable (∃ block ∈ state.live,
        block.start ≤ place ∧ place < block.start + block.size))

def start : State where
  pools := ⟨fun _ => ⟨none, none, 0, 0⟩, none, fun _ => 0, []⟩
  live := []
  registered := []
  stale := fun _ => false
  cleaned := false

theorem start_started : Started start :=
  ⟨fun _ => rfl, rfl, rfl, rfl, rfl, fun _ => rfl, rfl⟩

end Examples

end MallocSurvey.Winnie3
