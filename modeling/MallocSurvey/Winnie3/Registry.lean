import MallocSurvey.Library.Queue
import MallocSurvey.Winnie3.Blocks
import Mathlib.Data.List.Perm.Subperm

/-! # The registered states and their chunks -/

namespace MallocSurvey.Winnie3

open Library

variable {pools pools' : Pools} {registered : List Nat} {chunks : Nat → List Nat}
  {size newChunk : Nat}

structure Registry (pools : Pools) (registered : List Nat) : Prop where
  queue : Queue (fun size => (pools.state size).next) registered
  first : pools.states = registered.head?
  nodup : registered.Nodup
  sizes : ∀ size ∈ registered, 0 < size ∧ size ≤ useOperatorNew
  cleaner : ∀ size ∈ registered, (pools.state size).cleaner = some size
  listed : ∀ size, (pools.state size).chunksHead ≠ 0 → size ∈ registered

/-- The chunks of the sizes, the last one in front. -/
structure ChunkLists (pools : Pools) (registered : List Nat) (chunks : Nat → List Nat) :
    Prop where
  head : ∀ size, (pools.state size).chunksHead = (chunks size).headD 0
  linked : ∀ size, Linked id (loadPointer pools.memory) (chunks size)
  all : (registered.flatMap chunks).Perm (pools.allocated.map Extent.start)

/-! ## What the blocks are not part of -/

theorem Registry.congr (registry : Registry pools registered)
    (sameNext : ∀ size, (pools'.state size).next = (pools.state size).next)
    (sameCleaner : ∀ size, (pools'.state size).cleaner = (pools.state size).cleaner)
    (sameHead : ∀ size, (pools'.state size).chunksHead = (pools.state size).chunksHead)
    (sameStates : pools'.states = pools.states) : Registry pools' registered where
  queue := registry.queue.congr fun size _ => sameNext size
  first := sameStates.trans registry.first
  nodup := registry.nodup
  sizes := registry.sizes
  cleaner := fun size member => (sameCleaner size).trans (registry.cleaner size member)
  listed := fun size nonzero => registry.listed size (sameHead size ▸ nonzero)

theorem ChunkLists.mem_allocated (lists : ChunkLists pools registered chunks)
    (registry : Registry pools registered) {chunk : Nat} (member : chunk ∈ chunks size) :
    ∃ region ∈ pools.allocated, region.start = chunk := by
  have isRegistered : size ∈ registered := by
    apply registry.listed
    rw [lists.head]
    obtain ⟨first, others, isList⟩ := List.exists_cons_of_ne_nil (List.ne_nil_of_mem member)
    have linked := lists.linked size
    rw [isList] at linked ⊢
    exact linked.1
  exact List.mem_map.mp (lists.all.mem_iff.mp (List.mem_flatMap.mpr ⟨size, isRegistered, member⟩))

theorem ChunkLists.congr (lists : ChunkLists pools registered chunks)
    (registry : Registry pools registered)
    (sameHead : ∀ size, (pools'.state size).chunksHead = (pools.state size).chunksHead)
    (sameAllocated : pools'.allocated = pools.allocated)
    (sameLink : ∀ region ∈ pools.allocated,
      loadPointer pools'.memory region.start = loadPointer pools.memory region.start) :
    ChunkLists pools' registered chunks where
  head := fun size => (sameHead size).trans (lists.head size)
  linked := by
    intro size
    apply (lists.linked size).congr
    intro chunk member
    obtain ⟨region, isRegion, isStart⟩ := lists.mem_allocated registry member
    rw [← isStart]
    exact sameLink region isRegion
  all := sameAllocated ▸ lists.all

/-- What the loop over the blocks of a chunk leaves. -/
structure Frame (pools pools' : Pools) (start stop : Nat) : Prop where
  next : ∀ size, (pools'.state size).next = (pools.state size).next
  cleaner : ∀ size, (pools'.state size).cleaner = (pools.state size).cleaner
  chunksHead : ∀ size, (pools'.state size).chunksHead = (pools.state size).chunksHead
  states : pools'.states = pools.states
  allocated : pools'.allocated = pools.allocated
  memory : ∀ place, place < start ∨ stop ≤ place → pools'.memory place = pools.memory place

theorem frame_deallocate (wide : 8 ≤ size) (p : Nat) :
    Frame pools (pools.Deallocate size p) p (p + size) := by
  have sameFields : ∀ other,
      ((pools.Deallocate size p).state other).next = (pools.state other).next ∧
      ((pools.Deallocate size p).state other).cleaner = (pools.state other).cleaner ∧
      ((pools.Deallocate size p).state other).chunksHead = (pools.state other).chunksHead := by
    intro other
    unfold Pools.Deallocate
    dsimp only
    rw [Function.update_apply]
    split
    · next same =>
        rw [same]
        exact ⟨rfl, rfl, rfl⟩
    · exact ⟨rfl, rfl, rfl⟩
  exact
    { next := fun other => (sameFields other).1
      cleaner := fun other => (sameFields other).2.1
      chunksHead := fun other => (sameFields other).2.2
      states := rfl
      allocated := rfl
      memory := fun place outside => storeBytes_outside (by omega) }

theorem Frame.trans {middle : Pools} {start stop : Nat} (first : Frame pools middle start stop)
    (second : Frame middle pools' start stop) : Frame pools pools' start stop where
  next := fun size => (second.next size).trans (first.next size)
  cleaner := fun size => (second.cleaner size).trans (first.cleaner size)
  chunksHead := fun size => (second.chunksHead size).trans (first.chunksHead size)
  states := second.states.trans first.states
  allocated := second.allocated.trans first.allocated
  memory := fun place outside => (second.memory place outside).trans (first.memory place outside)

theorem Frame.wider {start stop low high : Nat} (frame : Frame pools pools' start stop)
    (below : low ≤ start) (above : stop ≤ high) : Frame pools pools' low high :=
  { frame with memory := fun place outside => frame.memory place (by omega) }

theorem frame_linkBlocks (wide : 8 ≤ size) (start count : Nat) :
    Frame pools (Pools.linkBlocks size start count pools) start (start + count * size) := by
  induction count generalizing pools with
  | zero =>
      exact ⟨fun _ => rfl, fun _ => rfl, fun _ => rfl, rfl, rfl, fun _ _ => rfl⟩
  | succ count induction =>
      have product : (count + 1) * size = count * size + size := Nat.succ_mul count size
      rw [product]
      have first : Frame pools (pools.Deallocate size (start + count * size)) start
          (start + (count * size + size)) :=
        (frame_deallocate wide (start + count * size)).wider (by omega) (by omega)
      exact first.trans (induction.wider (Nat.le_refl _) (by omega))

theorem Registry.frame {start stop : Nat} (registry : Registry pools registered)
    (frame : Frame pools pools' start stop) : Registry pools' registered :=
  registry.congr frame.next frame.cleaner frame.chunksHead frame.states

/-- Writes in the storage of the chunks keep their links. -/
theorem ChunkLists.frame {start stop : Nat} (lists : ChunkLists pools registered chunks)
    (registry : Registry pools registered) (frame : Frame pools pools' start stop)
    (apart : ∀ region ∈ pools.allocated, region.start + 8 ≤ start ∨ stop ≤ region.start) :
    ChunkLists pools' registered chunks := by
  refine lists.congr registry frame.chunksHead frame.allocated ?_
  intro region member
  apply loadPointer_congr
  intro place above below
  have isApart := apart region member
  exact frame.memory place (by omega)

/-! ## Registration -/

/-- A state is registered with its first chunk. -/
theorem Registry.register (registry : Registry pools registered) (fresh : size ∉ registered)
    (small : 0 < size ∧ size ≤ useOperatorNew) : Registry (pools.register size) (size :: registered) where
  queue := by
    refine ⟨?_, ?_⟩
    · simp [Pools.register, Pools.setState, registry.first]
    · apply registry.queue.congr
      intro other member
      have different : other ≠ size := by
        rintro rfl
        exact fresh member
      simp [Pools.register, Pools.setState, Function.update_of_ne different]
  first := rfl
  nodup := List.nodup_cons.mpr ⟨fresh, registry.nodup⟩
  sizes := by
    intro other member
    rcases List.mem_cons.mp member with isNew | isOld
    · rw [isNew]
      exact small
    · exact registry.sizes other isOld
  cleaner := by
    intro other member
    by_cases same : other = size
    · rw [same]
      simp [Pools.register, Pools.setState]
    · rcases List.mem_cons.mp member with isNew | isOld
      · exact absurd isNew same
      · have cleaner := registry.cleaner other isOld
        simpa [Pools.register, Pools.setState, Function.update_of_ne same] using cleaner
  listed := by
    intro other nonzero
    by_cases same : other = size
    · rw [same]
      exact List.mem_cons_self
    · apply List.mem_cons_of_mem
      apply registry.listed
      simpa [Pools.register, Pools.setState, Function.update_of_ne same] using nonzero

theorem ChunkLists.register (lists : ChunkLists pools registered chunks)
    (noChunks : (pools.state size).chunksHead = 0) :
    ChunkLists (pools.register size) (size :: registered) chunks := by
  have empty : chunks size = [] := by
    cases isList : chunks size with
    | nil => rfl
    | cons first others =>
        have linked := lists.linked size
        have head := lists.head size
        rw [isList] at linked head
        exact absurd (head.symm.trans noChunks) linked.1
  have sameHead : ∀ other, ((pools.register size).state other).chunksHead =
      (pools.state other).chunksHead := by
    intro other
    by_cases same : other = size
    · rw [same]
      simp [Pools.register, Pools.setState]
    · simp [Pools.register, Pools.setState, Function.update_of_ne same]
  refine ⟨fun other => (sameHead other).trans (lists.head other), lists.linked, ?_⟩
  rw [List.flatMap_cons, empty, List.nil_append]
  exact lists.all

/-! ## Chunks -/

/-- The chunk before the blocks are linked. -/
def Pools.chunkAdded (pools : Pools) (size newChunk : Nat) : Pools :=
  { pools.setState size { pools.state size with chunksHead := newChunk } with
    memory := storePointer pools.memory newChunk (pools.state size).chunksHead
    allocated := ⟨newChunk, chunkSize + sizeofHeader⟩ :: pools.allocated }

theorem addChunk_eq (pools : Pools) (size newChunk : Nat) :
    pools.addChunk size newChunk =
      Pools.linkBlocks size (newChunk + sizeofHeader) (chunkSize / size)
        (pools.chunkAdded size newChunk) := rfl

theorem Registry.chunkAdded (registry : Registry pools registered) (member : size ∈ registered) :
    Registry (pools.chunkAdded size newChunk) registered := by
  have sameFields : ∀ other,
      ((pools.chunkAdded size newChunk).state other).next = (pools.state other).next ∧
      ((pools.chunkAdded size newChunk).state other).cleaner = (pools.state other).cleaner := by
    intro other
    unfold Pools.chunkAdded Pools.setState
    dsimp only
    rw [Function.update_apply]
    split
    · next same =>
        rw [same]
        exact ⟨rfl, rfl⟩
    · exact ⟨rfl, rfl⟩
  exact
    { queue := registry.queue.congr fun other _ => (sameFields other).1
      first := registry.first
      nodup := registry.nodup
      sizes := registry.sizes
      cleaner := fun other inside =>
        (sameFields other).2.trans (registry.cleaner other inside)
      listed := by
        intro other nonzero
        by_cases same : other = size
        · rw [same]
          exact member
        · apply registry.listed
          simpa [Pools.chunkAdded, Pools.setState, Function.update_of_ne same] using nonzero }

theorem flatMap_update_perm (nodup : registered.Nodup) (member : size ∈ registered)
    (chunk : Nat) :
    (registered.flatMap (Function.update chunks size (chunk :: chunks size))).Perm
      (chunk :: registered.flatMap chunks) := by
  induction registered with
  | nil => cases member
  | cons first others induction =>
      obtain ⟨notInside, othersNodup⟩ := List.nodup_cons.mp nodup
      rw [List.flatMap_cons, List.flatMap_cons]
      by_cases same : first = size
      · subst same
        have kept : others.flatMap (Function.update chunks first (chunk :: chunks first)) =
            others.flatMap chunks := by
          apply List.flatMap_congr
          intro other inside
          apply Function.update_of_ne
          rintro rfl
          exact notInside inside
        rw [Function.update_self, kept]
        exact List.Perm.refl _
      · rw [Function.update_of_ne same]
        have inOthers : size ∈ others := by
          rcases List.mem_cons.mp member with isFirst | inside
          · exact absurd isFirst.symm same
          · exact inside
        exact ((induction othersNodup inOthers).append_left _).trans List.perm_middle

/-- A new chunk goes in front of the list of its size. -/
theorem ChunkLists.chunkAdded (lists : ChunkLists pools registered chunks)
    (registry : Registry pools registered) (member : size ∈ registered)
    (nonzero : newChunk ≠ 0) (chunkOk : ∀ chunk ∈ pools.allocated, ChunkOk chunk)
    (apart : ∀ region ∈ pools.allocated,
      Extent.Apart ⟨newChunk, chunkSize + sizeofHeader⟩ region) :
    ChunkLists (pools.chunkAdded size newChunk) registered
      (Function.update chunks size (newChunk :: chunks size)) := by
  have head_lt : (pools.state size).chunksHead < 2 ^ 64 := by
    rw [lists.head]
    cases isList : chunks size with
    | nil => exact Nat.two_pow_pos 64
    | cons first others =>
        obtain ⟨region, isRegion, isStart⟩ := lists.mem_allocated registry
          (isList ▸ List.mem_cons_self : first ∈ chunks size)
        have bound := (chunkOk region isRegion).bound
        rw [List.headD_cons, ← isStart]
        simp only [chunkSize, sizeofHeader] at bound
        omega
  have kept : ∀ other, Linked id
      (loadPointer (storePointer pools.memory newChunk (pools.state size).chunksHead))
      (chunks other) := by
    intro other
    apply (lists.linked other).congr
    intro chunk inside
    obtain ⟨region, isRegion, isStart⟩ := lists.mem_allocated registry inside
    rw [← isStart]
    apply loadPointer_storePointer_apart
    have isApart := apart region isRegion
    have length := (chunkOk region isRegion).length
    simp only [Extent.Apart, chunkSize, sizeofHeader, Apart, id] at *
    omega
  exact
    { head := by
        intro other
        by_cases same : other = size
        · rw [same]
          simp [Pools.chunkAdded, Pools.setState]
        · simpa [Pools.chunkAdded, Pools.setState, Function.update_of_ne same] using
            lists.head other
      linked := by
        intro other
        by_cases same : other = size
        · rw [same, Function.update_self]
          refine ⟨nonzero, ?_, kept size⟩
          rw [← lists.head]
          exact loadPointer_storePointer head_lt
        · rw [Function.update_of_ne same]
          exact kept other
      all := (flatMap_update_perm registry.nodup member newChunk).trans (lists.all.cons newChunk) }

end MallocSurvey.Winnie3

/-! # A clean deletes all chunks -/

namespace MallocSurvey.Winnie3

open Library

variable {pools : Pools} {registered : List Nat} {chunks : Nat → List Nat}

/-- A region with a start that only one has is taken out. -/
theorem eraseP_start_perm {allocated : List Extent} {p : Nat} {rest : List Nat}
    (perm : (allocated.map Extent.start).Perm (p :: rest)) :
    ((allocated.eraseP fun region => region.start = p).map Extent.start).Perm rest := by
  have erased : (allocated.eraseP fun region => region.start = p).map Extent.start =
      (allocated.map Extent.start).erase p := by
    rw [List.erase_eq_eraseP', List.eraseP_map]
    rfl
  rw [erased]
  have := perm.erase p
  rwa [List.erase_cons_head] at this

theorem delete_spec {p : Nat} {rest : List Nat}
    (perm : (pools.allocated.map Extent.start).Perm (p :: rest)) :
    ∃ allocated, pools.delete p = some { pools with allocated := allocated } ∧
      (allocated.map Extent.start).Perm rest := by
  have isAllocated : pools.allocated.any (fun region => region.start = p) = true := by
    obtain ⟨region, isRegion, isStart⟩ :=
      List.mem_map.mp (perm.mem_iff.mpr (List.mem_cons_self : p ∈ p :: rest))
    exact List.any_eq_true.mpr ⟨region, isRegion, decide_eq_true isStart⟩
  refine ⟨pools.allocated.eraseP fun region => region.start = p, ?_, eraseP_start_perm perm⟩
  unfold Pools.delete
  rw [if_pos isAllocated]

/-- The loop of `Cleaner` deletes the chunks of its list. -/
theorem deleteChunks_spec {list rest : List Nat} {steps : Nat}
    (linked : Linked id (loadPointer pools.memory) list)
    (perm : (pools.allocated.map Extent.start).Perm (list ++ rest))
    (enough : list.length < steps) :
    ∃ allocated,
      Pools.deleteChunks steps (list.headD 0) pools = some { pools with allocated := allocated } ∧
      (allocated.map Extent.start).Perm rest := by
  induction list generalizing pools steps with
  | nil =>
      obtain ⟨steps, rfl⟩ := Nat.exists_eq_add_of_lt enough
      exact ⟨pools.allocated, rfl, perm⟩
  | cons chunk others induction =>
      obtain ⟨steps, rfl⟩ := Nat.exists_eq_succ_of_ne_zero (Nat.ne_zero_of_lt enough)
      obtain ⟨left, deleted, leftPerm⟩ := delete_spec perm
      obtain ⟨allocated, result, resultPerm⟩ :=
        @induction { pools with allocated := left } steps linked.2.2 leftPerm
          (Nat.lt_of_succ_lt_succ enough)
      refine ⟨allocated, ?_, resultPerm⟩
      have next : loadPointer pools.memory chunk = others.headD 0 := linked.2.1
      rw [List.headD_cons, Pools.deleteChunks, if_neg linked.1, deleted, next]
      exact result

/-- The loop of `CleanThreadAllocatorState` deletes the chunks of the states it passes. -/
theorem cleanStates_spec {todo : List Nat} {steps : Nat}
    (queue : Queue (fun size => (pools.state size).next) todo)
    (cleaner : ∀ size ∈ todo, (pools.state size).cleaner = some size)
    (head : ∀ size, (pools.state size).chunksHead = (chunks size).headD 0)
    (linked : ∀ size, Linked id (loadPointer pools.memory) (chunks size))
    (perm : (pools.allocated.map Extent.start).Perm (todo.flatMap chunks))
    (enough : todo.length < steps) :
    Pools.cleanStates steps todo.head? pools = some { pools with allocated := [] } := by
  induction todo generalizing pools steps with
  | nil =>
      obtain ⟨steps, rfl⟩ := Nat.exists_eq_add_of_lt enough
      have empty : pools.allocated = [] := List.map_eq_nil_iff.mp (List.perm_nil.mp perm)
      rw [← empty]
      rfl
  | cons size others induction =>
      obtain ⟨steps, rfl⟩ := Nat.exists_eq_succ_of_ne_zero (Nat.ne_zero_of_lt enough)
      have count : (chunks size).length < pools.allocated.length + 1 := by
        have length := perm.length_eq
        rw [List.length_map, List.flatMap_cons, List.length_append] at length
        omega
      obtain ⟨left, deleted, leftPerm⟩ := deleteChunks_spec (linked size) perm count
      have cleaned : pools.Cleaner size = some { pools with allocated := left } := by
        unfold Pools.Cleaner
        rw [head]
        exact deleted
      have rest : Pools.cleanStates steps others.head? { pools with allocated := left } =
          some { pools with allocated := [] } :=
        @induction { pools with allocated := left } steps queue.2
          (fun other inside => cleaner other (List.mem_cons_of_mem _ inside)) head linked
          leftPerm (Nat.lt_of_succ_lt_succ enough)
      have next : (pools.state size).next = others.head? := queue.1
      rw [List.head?_cons, Pools.cleanStates, cleaner size List.mem_cons_self,
        Option.bind_eq_bind, Option.bind_some, cleaned, Option.bind_eq_bind, Option.bind_some,
        next]
      exact rest

/-- There are not more registered states than sizes. -/
theorem length_registered (registry : Registry pools registered) :
    registered.length < useOperatorNew + 1 := by
  have inside : registered ⊆ List.range' 1 useOperatorNew := by
    intro size member
    have bounds := registry.sizes size member
    exact List.mem_range'_1.mpr ⟨bounds.1, by omega⟩
  have short := (List.subperm_of_subset registry.nodup inside).length_le
  rw [List.length_range'] at short
  exact Nat.lt_succ_of_le short

theorem CleanThreadAllocatorState_spec (registry : Registry pools registered)
    (lists : ChunkLists pools registered chunks) :
    pools.CleanThreadAllocatorState = some { pools with allocated := [] } := by
  have result := cleanStates_spec registry.queue registry.cleaner lists.head lists.linked
    lists.all.symm (length_registered registry)
  rw [← registry.first] at result
  exact result

end MallocSurvey.Winnie3
