import MallocSurvey.DumbTlsf.Invariant

/-! # Calls of dumb_tlsf keep the blocks apart

Each call preserves the invariant, so every run whose calls do not reuse a block that
is too small hands out memory of the requested size. -/

namespace MallocSurvey.DumbTlsf

open Library

def State.Inv (state : State) : Prop := DumbTlsf.Inv state.heap state.live state.free

/-- What `alloc_e` does to the state of a program that asked for `size` bytes. -/
theorem allocE_inv {state : State} {heap : Heap} {p size answer : Nat} (inv : state.Inv)
    (small : size ≤ maxSize) (fits : Fits state size)
    (answers : Answers state.heap.reserved allocSize answer)
    (result : allocE state.heap (esizeof size) (segregate (esizeof size)) answer =
      some (p, heap)) :
    p ≠ 0 ∧ (state.allocated heap p size size false).Inv ∨ p = 0 ∧ heap = state.heap := by
  have notLarge : ¬ size > maxSize := Nat.not_lt.mpr small
  unfold allocE at result
  rw [if_neg (Nat.not_le.mpr (segregate_lt small))] at result
  split at result
  · next nonempty =>
      -- the list has a block
      cases result
      obtain ⟨block, found, isHead⟩ := inv.chained.firstOf_head nonempty
      have reused : state.reused size = some block := by
        rw [State.reused, if_neg notLarge, found]
      have room := (le_esizeof size).trans (fits block reused)
      have next := inv.reuse found room small
      refine .inl ⟨nonempty, ?_⟩
      simp only [State.Inv, State.allocated, State.roomFor, reused, (firstOf_mem found).2,
        ← isHead]
      rw [← isHead] at next
      exact next
  · next empty =>
      have missing := (inv.chained.head_eq_zero_iff _).mp (not_not.mp empty)
      have reused : state.reused size = none := by
        rw [State.reused, if_neg notLarge, missing]
      have carved : ∀ chunk : Heap, DumbTlsf.Inv chunk state.live state.free →
          chunk.limit ≠ 0 → chunk.limit + esizeof size ≤ chunk.chunkEnd →
          (state.allocated { chunk with limit := chunk.limit + esizeof size }
            chunk.limit size size false).Inv := by
        intro chunk chunkInv nonzero room
        simp only [State.Inv, State.allocated, State.roomFor, reused, if_neg notLarge]
        exact chunkInv.carve nonzero room (esizeof_mod size) (le_esizeof size) small
      split at result
      · -- a new chunk
        cases chunkResult : newChunk state.heap answer with
        | none =>
            rw [chunkResult] at result
            cases result
        | some chunk =>
            rw [chunkResult] at result
            cases result
            obtain ⟨chunkInv, limit, chunkEnd, _⟩ := inv.newChunk answers chunkResult
            have esizeLe := esizeof_le small
            have room : sizeofHeader + maxSize ≤ allocSize := by decide
            have nonzero : chunk.limit ≠ 0 := by
              rw [limit]
              exact Nat.ne_of_gt (Nat.add_pos_right _ (by decide))
            exact .inl ⟨nonzero, carved chunk chunkInv nonzero (by omega)⟩
      · next room =>
        cases result
        by_cases nonzero : state.heap.limit = 0
        · -- before the first chunk only the empty block fits
          have noTail : state.heap.chunkEnd = 0 := by
            by_contra nonempty
            obtain ⟨region, isRegion, below, _⟩ := inv.inside state.heap.tail
              List.mem_cons_self (by simpa [Heap.tail, nonzero] using nonempty)
            have positive := (inv.region region isRegion).1
            simp only [Heap.tail] at below
            omega
          refine .inr ⟨nonzero, ?_⟩
          have noSize : esizeof size = 0 := by omega
          rw [noSize, Nat.add_zero]
        · exact .inl ⟨nonzero, carved state.heap inv nonzero (by omega)⟩

theorem dalloc_inv {state : State} {heap : Heap} {p size answer : Nat} (inv : state.Inv)
    (fits : Fits state size) (sizeLt : size < 2 ^ 64)
    (answers : Answers state.heap.reserved (systemSize size) answer)
    (result : dalloc state.heap size answer = some (p, heap)) :
    p ≠ 0 ∧ (state.allocated heap p size size false).Inv ∨ p = 0 ∧ heap = state.heap := by
  unfold dalloc at result
  split at result
  · next large =>
      cases result
      rw [systemSize, if_pos large] at answers
      by_cases isNull : p = 0
      · exact .inr ⟨isNull, by rw [allocator, if_pos isNull]⟩
      · have reused : state.reused size = none := by rw [State.reused, if_pos large]
        refine .inl ⟨isNull, ?_⟩
        rw [allocator, if_neg isNull]
        simp only [State.Inv, State.allocated, State.roomFor, reused, if_pos large]
        exact inv.mallocBlock (.of_answers answers isNull (Nat.zero_lt_of_lt large)) large sizeLt
  · next small =>
      rw [systemSize, if_neg small] at answers
      exact allocE_inv inv (Nat.le_of_not_lt small) fits answers result

/-- `dsalloc` writes the size into the first word of its block. -/
theorem remember_inv {heap : Heap} {live : List Block} {free : List (FreeBlock Nat)}
    {start room size : Nat}
    (inv : Inv heap (⟨start, room, size + sizeofSize, false⟩ :: live) free)
    (sizeLt : size < 2 ^ 64) :
    Inv { heap with memory := storePointer heap.memory start size }
      (⟨start, room, size, true⟩ :: live) free := by
  have ok := inv.live _ List.mem_cons_self
  have fits : size + sizeofSize ≤ room := (Nat.zero_add _).symm.trans_le ok.fits
  simp only [sizeofSize] at fits
  have others := List.pairwise_cons.mp inv.live_apart
  -- only the block itself is written
  have outside : ∀ place, place < start ∨ start + room ≤ place →
      storePointer heap.memory start size place = heap.memory place :=
    fun place apart => storeBytes_outside (by omega)
  have same : SameWords heap live free (storePointer heap.memory start size) := by
    apply sameWords_of_outside
    · intro block isFree place above below
      apply outside
      have apart := inv.free_apart List.mem_cons_self isFree
      have large := (inv.free block isFree).1
      simp only [Extent.Apart, Apart, Block.whole, freeExtent, sizeofSize] at apart large
      omega
    · intro block isLive remembered place above below
      apply outside
      have apart := others.1 _ (List.mem_map_of_mem isLive)
      have header := (inv.live block (List.mem_cons_of_mem _ isLive)).header_le remembered
      simp only [Extent.Apart, Apart, Block.whole] at apart
      omega
  exact {
    chained := inv.chained.congr same.free
    regionsApart := inv.regionsApart
    region := inv.region
    apart := inv.apart
    inside := inv.inside
    tail := inv.tail
    live := by
      intro block member
      rcases List.mem_cons.mp member with isNew | member
      · subst isNew
        exact {
          nonzero := ok.nonzero
          fits := by simp only [Block.header, if_true, sizeofSize]; omega
          room := ok.room
          sizeLt := sizeLt
          sizeWord := fun _ => loadPointer_storePointer sizeLt
          fromSystem := fun large => ok.fromSystem (Nat.lt_add_right _ large) }
      · have blockOk := inv.live block (List.mem_cons_of_mem _ member)
        exact { blockOk with
          sizeWord := fun remembered =>
            (same.live block member remembered).trans (blockOk.sizeWord remembered) }
    free := inv.free }

theorem dsalloc_inv {state : State} {heap : Heap} {p size answer : Nat} (inv : state.Inv)
    (fits : Fits state (size + sizeofSize)) (sizeLt : size + sizeofSize < 2 ^ 64)
    (answers : Answers state.heap.reserved (systemSize (size + sizeofSize)) answer)
    (result : dsalloc state.heap size answer = some (p, heap)) :
    (state.allocated heap (p - sizeofSize) (size + sizeofSize) size true).Inv := by
  unfold dsalloc at result
  rw [Nat.mod_eq_of_lt sizeLt] at result
  cases inner : dalloc state.heap (size + sizeofSize) answer with
  | none =>
      rw [inner] at result
      cases result
  | some pair =>
      obtain ⟨start, middle⟩ := pair
      rw [inner] at result
      simp only [Option.bind_eq_bind, Option.bind_some] at result
      split at result
      · cases result
      · next nonzero =>
          cases result
          rcases dalloc_inv inv fits sizeLt answers inner with ⟨_, next⟩ | ⟨isNull, _⟩
          · rw [Nat.add_sub_cancel]
            exact remember_inv next (Nat.lt_of_le_of_lt (Nat.le_add_right _ _) sizeLt)
          · exact absurd isNull nonzero

/-! ## Freeing -/

theorem erase_perm (heap : Heap) {live : List Block} {block : Block}
    (free : List (FreeBlock Nat)) (isLive : block ∈ live) :
    (pieces heap live free).Perm
      (block.whole :: heap.tail :: ((live.erase block).map Block.whole ++ free.map freeExtent)) :=
  (List.Perm.cons _ (((List.perm_cons_erase isLive).map Block.whole).append_right _)).trans
    (List.Perm.swap _ _ _)

section Freeing

variable {heap : Heap} {live : List Block} {free : List (FreeBlock Nat)} {block : Block}

/-- The freed block becomes the first of its list. -/
theorem Inv.push (inv : Inv heap live free) (isLive : block ∈ live)
    (large : sizeofSize ≤ block.room) (index : Nat) :
    Inv { heap with
        memory := storePointer heap.memory block.start (heap.table index)
        table := Function.update heap.table index block.start }
      (live.erase block) (⟨index, block.start, block.room⟩ :: free) := by
  have perm := erase_perm heap free isLive
  have apart := List.pairwise_cons.mp ((Extent.pairwise_perm perm).mp inv.apart)
  have ok := inv.live block isLive
  have outside : ∀ place, place < block.start ∨ block.start + block.room ≤ place →
      storePointer heap.memory block.start (heap.table index) place = heap.memory place := by
    intro place apart
    simp only [sizeofSize] at large
    exact storeBytes_outside (by omega)
  have back : (pieces heap live free).Perm (heap.tail ::
      ((live.erase block).map Block.whole ++
        (freeExtent ⟨index, block.start, block.room⟩ :: free.map freeExtent))) :=
    perm.trans ((List.Perm.swap _ _ _).trans (List.Perm.cons _ List.perm_middle.symm))
  exact {
    chained := by
      refine @Chained.push Nat _ _ _ _ inv.chained ⟨index, block.start, block.room⟩
        ok.nonzero (fun other isFree => inv.free_start_lt isFree) ?_
      · intro other isFree
        have isApart := inv.free_apart isLive isFree
        have otherLarge := (inv.free other isFree).1
        simp only [Extent.Apart, Apart, Block.whole, freeExtent, sizeofSize] at *
        omega
    regionsApart := inv.regionsApart
    region := inv.region
    apart := (Extent.pairwise_perm back).mp inv.apart
    inside := fun piece member => inv.inside piece (back.mem_iff.mpr member)
    tail := inv.tail
    live := by
      intro other member
      have otherOk := inv.live other (List.mem_of_mem_erase member)
      refine { otherOk with sizeWord := fun remembered => ?_ }
      rw [← otherOk.sizeWord remembered]
      apply loadPointer_congr
      intro place above below
      apply outside
      have isApart := apart.1 other.whole (List.mem_cons_of_mem _
        (List.mem_append_left _ (List.mem_map_of_mem member)))
      have header := otherOk.header_le remembered
      simp only [Extent.Apart, Apart, Block.whole, sizeofSize] at *
      omega
    free := by
      intro other member
      rcases List.mem_cons.mp member with isNew | member
      · exact isNew ▸ ⟨large, ok.room⟩
      · exact inv.free other member }

/-- A block goes back to the system allocator. -/
theorem Inv.release (inv : Inv heap live free) (isLive : block ∈ live)
    (large : maxSize < block.size) {next : Heap}
    (result : deallocator heap block.start = some next) :
    Inv next (live.erase block) free := by
  have ok := inv.live block isLive
  have isRegion := ok.fromSystem large
  have nonempty : 0 < block.room := by
    have fits := ok.fits
    omega
  have perm := erase_perm heap free isLive
  have apart := List.pairwise_cons.mp ((Extent.pairwise_perm perm).mp inv.apart)
  -- the regions other than the block's start elsewhere
  have kept : ∀ region ∈ heap.reserved, region ≠ block.whole →
      region ∈ heap.reserved.eraseP fun region => region.start = block.start := by
    intro region member different
    apply List.mem_eraseP_of_neg _ |>.mpr member
    have : Std.Symm Extent.Apart := ⟨fun _ _ => Extent.Apart.symm⟩
    have isApart := inv.regionsApart.forall member isRegion different
    have positive := (inv.region region member).2.1
    simp only [Extent.Apart, Apart, Block.whole] at isApart
    simp only [decide_eq_true_eq]
    omega
  unfold deallocator at result
  rw [if_neg ok.nonzero] at result
  split at result
  · cases result
    exact {
      chained := inv.chained
      regionsApart := inv.regionsApart.sublist (List.eraseP_sublist)
      region := fun region member => inv.region region (List.mem_of_mem_eraseP member)
      apart := apart.2
      inside := by
        intro piece member nonemptyPiece
        obtain ⟨region, isOther, inside⟩ :=
          inv.inside piece (perm.mem_iff.mpr (List.mem_cons_of_mem _ member)) nonemptyPiece
        refine ⟨region, kept region isOther ?_, inside⟩
        intro isBlock
        have isApart := apart.1 piece member
        subst isBlock
        simp only [Extent.Apart, Apart, Extent.Inside, Block.whole] at isApart inside
        omega
      tail := inv.tail
      live := by
        intro other member
        have otherOk := inv.live other (List.mem_of_mem_erase member)
        refine { otherOk with fromSystem := fun otherLarge => ?_ }
        apply kept _ (otherOk.fromSystem otherLarge)
        have isApart := apart.1 other.whole (List.mem_cons_of_mem _
          (List.mem_append_left _ (List.mem_map_of_mem member)))
        exact (isApart.ne nonempty).symm
      free := inv.free }
  · cases result

end Freeing

theorem dfree_inv {state : State} {heap : Heap} {block : Block} (inv : state.Inv)
    (isLive : block ∈ state.live) (large : block.size ≤ maxSize → sizeofSize ≤ block.room)
    (result : dfree state.heap block.start block.size = some heap) :
    (state.freed heap block).Inv := by
  unfold dfree at result
  unfold State.Inv State.freed
  split at result
  · next isLarge =>
      rw [if_pos isLarge]
      exact inv.release isLive isLarge result
  · next small =>
      rw [if_neg small]
      unfold freeE at result
      split at result
      · cases result
      · cases result
        exact inv.push isLive (large (Nat.le_of_not_lt small)) _

/-- Both ways of freeing pass the size of the allocation. -/
theorem free_call {state : State} (inv : state.Inv) {block : Block}
    (isLive : block ∈ state.live) :
    freeCall state.heap block = dfree state.heap block.start block.size := by
  cases remembered : block.remembered with
  | false => simp [freeCall, Block.address, Block.header, remembered]
  | true =>
      have word := (inv.live block isLive).sizeWord remembered
      simp [freeCall, dsfree, Block.address, Block.header, remembered, word]

theorem inv_step {state next : State} {event : Event} (inv : state.Inv)
    (enabled : Enabled state event) (meets : Meets state event)
    (result : step state event = some next) : next.Inv := by
  cases event with
  | dalloc size answer =>
      cases call : dalloc state.heap size answer with
      | none => simp [step, call] at result
      | some pair =>
          obtain ⟨p, heap⟩ := pair
          simp only [step, call, Option.bind_eq_bind, Option.bind_some] at result
          rcases dalloc_inv inv meets enabled.1 enabled.2 call with
            ⟨nonzero, nextInv⟩ | ⟨isNull, same⟩
          · rw [if_neg nonzero] at result
            cases result
            exact nextInv
          · rw [if_pos isNull] at result
            cases result
            exact same ▸ inv
  | dsalloc size answer =>
      cases call : dsalloc state.heap size answer with
      | none => simp [step, call] at result
      | some pair =>
          obtain ⟨p, heap⟩ := pair
          simp only [step, call, Option.bind_eq_bind, Option.bind_some] at result
          cases result
          have answers := enabled.2
          rw [Nat.mod_eq_of_lt meets.1] at answers ⊢
          exact dsalloc_inv inv meets.2 meets.1 answers call
  | free block =>
      cases call : dfree state.heap block.start block.size with
      | none => simp [step, free_call inv enabled, call] at result
      | some heap =>
          simp only [step, free_call inv enabled, call, Option.bind_eq_bind,
            Option.bind_some] at result
          cases result
          exact dfree_inv inv enabled meets call
  | write place value =>
      obtain ⟨block, isLive, above, below⟩ := enabled
      cases result
      exact inv.write isLive above below value

theorem safe_of_inv {state : State} (inv : state.Inv) : Safe state where
  large block isLive := (inv.live block isLive).fits
  inside := by
    intro block isLive nonempty
    have fits := (inv.live block isLive).fits
    obtain ⟨region, isRegion, inside⟩ := whole_inside inv isLive (by omega)
    refine ⟨region, isRegion, ?_⟩
    simp only [Extent.Inside, Block.whole, Block.payload, Block.address] at *
    omega
  apart := by
    apply List.pairwise_map.mpr
    apply List.Pairwise.imp_of_mem _ (List.pairwise_map.mp inv.live_apart)
    intro left right leftLive rightLive apart
    have leftFits := (inv.live left leftLive).fits
    have rightFits := (inv.live right rightLive).fits
    apply apart.parts
    · simp only [Extent.Inside, Block.whole, Block.payload, Block.address]
      omega
    · simp only [Extent.Inside, Block.whole, Block.payload, Block.address]
      omega

theorem reachable_inv {state : State} (reachable : machine.Reachable Meets state) :
    state.Inv := by
  apply reachable.invariant
  · intro state isInit
    obtain ⟨memory, rfl⟩ := isInit
    exact inv_initial memory
  · intro state event next inv enabled meets result
    exact inv_step inv enabled meets result

/-! ## Exactly when a call returns a good block -/

theorem State.reused_free {state : State} {request : Nat} {block : FreeBlock Nat}
    (reused : state.reused request = some block) :
    request ≤ maxSize ∧ firstOf (segregate (esizeof request)) state.free = some block := by
  unfold State.reused at reused
  split at reused
  · cases reused
  · next small => exact ⟨Nat.le_of_not_lt small, reused⟩

theorem roomFor_lt {state : State} (inv : state.Inv) {request : Nat}
    (small : request ≤ maxSize) : state.roomFor request < 2 ^ 64 := by
  unfold State.roomFor
  split
  · next block reused =>
      have isFree := (firstOf_mem (State.reused_free reused).2).1
      have nonzero := inv.chained.start_ne_zero isFree
      obtain ⟨region, isRegion, _, above⟩ := freeExtent_inside inv isFree
      have bound := (inv.region region isRegion).2.2
      simp only [freeExtent] at above
      omega
  · rw [if_neg (Nat.not_lt.mpr small)]
    exact Nat.lt_of_le_of_lt (esizeof_le small) (by decide)

/-- A reused block that holds the request was carved for its element size. -/
theorem fits_of_room {state : State} (inv : state.Inv) {request : Nat}
    (room : request ≤ state.roomFor request) : Fits state request := by
  intro block reused
  obtain ⟨small, found⟩ := State.reused_free reused
  rw [State.roomFor, reused] at room
  exact (inv.free block (firstOf_mem found).1).2.esizeof_le small room

/-- A request that finds a block on its list does not return `NULL`. -/
theorem dalloc_ne_zero {state : State} (inv : state.Inv) {request answer p : Nat}
    {heap : Heap} {block : FreeBlock Nat} (reused : state.reused request = some block)
    (result : dalloc state.heap request answer = some (p, heap)) : p ≠ 0 := by
  obtain ⟨small, found⟩ := State.reused_free reused
  have nonempty : state.heap.table (segregate (esizeof request)) ≠ 0 := by
    intro empty
    rw [(inv.chained.head_eq_zero_iff _).mp empty] at found
    cases found
  rw [dalloc, if_neg (Nat.not_lt.mpr small), allocE,
    if_neg (Nat.not_le.mpr (segregate_lt small)), if_pos nonempty] at result
  cases result
  exact nonempty

theorem meets_of_safe {state next : State} {event : Event} (inv : state.Inv)
    (allocates : event.Allocates) (enabled : Enabled state event)
    (result : step state event = some next) (safe : Safe next) : Meets state event := by
  cases event with
  | dalloc size answer =>
      cases call : dalloc state.heap size answer with
      | none => simp [step, call] at result
      | some pair =>
          obtain ⟨p, heap⟩ := pair
          simp only [step, call, Option.bind_eq_bind, Option.bind_some] at result
          by_cases isNull : p = 0
          · intro block reused
            exact absurd isNull (dalloc_ne_zero inv reused call)
          · rw [if_neg isNull] at result
            cases result
            have room := safe.large _ List.mem_cons_self
            exact fits_of_room inv ((Nat.zero_add _).symm.trans_le room)
  | dsalloc size answer =>
      cases call : dsalloc state.heap size answer with
      | none => simp [step, call] at result
      | some pair =>
          obtain ⟨p, heap⟩ := pair
          simp only [step, call, Option.bind_eq_bind, Option.bind_some] at result
          cases result
          have room : sizeofSize + size ≤ state.roomFor ((size + sizeofSize) % 2 ^ 64) :=
            safe.large _ List.mem_cons_self
          have sizeLt : size + sizeofSize < 2 ^ 64 := by
            by_contra wraps
            have bound := enabled.1
            have small : (size + sizeofSize) % 2 ^ 64 ≤ maxSize := by
              simp only [sizeofSize, maxSize] at wraps ⊢
              omega
            have roomLt := roomFor_lt inv small
            omega
          rw [Nat.mod_eq_of_lt sizeLt, Nat.add_comm] at room
          exact ⟨sizeLt, fits_of_room inv room⟩
  | free block => exact allocates.elim
  | write place value => exact allocates.elim

/-- Runs of calls that meet the condition are safe, and after such a run an
allocation keeps the state safe exactly if it meets the condition. -/
theorem blocks_safe_iff {state : State} (reachable : machine.Reachable Meets state) :
    Safe state ∧ ∀ event next, event.Allocates → Enabled state event →
      step state event = some next → (Safe next ↔ Meets state event) := by
  have inv := reachable_inv reachable
  refine ⟨safe_of_inv inv, ?_⟩
  intro event next allocates enabled result
  constructor
  · intro safe
    exact meets_of_safe inv allocates enabled result safe
  · intro meets
    exact safe_of_inv (inv_step inv enabled meets result)

/-! ## A block that is reused too small

The element sizes 64 and 72 share a list. -/

section Reused

def noMemory : Memory := fun _ => 0

/-- Nothing has been allocated. -/
def unused : State := ⟨Heap.initial noMemory, [], []⟩

def chunkMemory : Memory := storePointer (storePointer noMemory 4096 0) (4096 + 8) allocSize

def oneBlock : State :=
  ⟨⟨fun _ => 0, 4096, 4112 + 64, 4096 + allocSize, chunkMemory, [⟨4096, allocSize⟩]⟩,
    [⟨4112, 64, 64, false⟩], []⟩

def twoBlocks : State :=
  ⟨⟨fun _ => 0, 4096, 4176 + 64, 4096 + allocSize, chunkMemory, [⟨4096, allocSize⟩]⟩,
    [⟨4176, 64, 64, false⟩, ⟨4112, 64, 64, false⟩], []⟩

def freedBlock : State :=
  ⟨⟨Function.update (fun _ => 0) 16 4112, 4096, 4176 + 64, 4096 + allocSize,
      storePointer chunkMemory 4112 0, [⟨4096, allocSize⟩]⟩,
    [⟨4176, 64, 64, false⟩], [⟨16, 4112, 64⟩]⟩

/-- The block of 64 bytes serves a request for 72. -/
def shortBlock : State :=
  ⟨⟨Function.update (Function.update (fun _ => 0) 16 4112) 16
        (loadPointer (storePointer chunkMemory 4112 0) 4112),
      4096, 4176 + 64, 4096 + allocSize, storePointer chunkMemory 4112 0,
      [⟨4096, allocSize⟩]⟩,
    [⟨4112, 64, 72, false⟩, ⟨4176, 64, 64, false⟩], []⟩

theorem unused_dalloc : step unused (.dalloc 64 4096) = some oneBlock := rfl

theorem oneBlock_dalloc : step oneBlock (.dalloc 64 0) = some twoBlocks := rfl

theorem twoBlocks_free :
    step twoBlocks (.free ⟨4112, 64, 64, false⟩) = some freedBlock := rfl

theorem freedBlock_dalloc : step freedBlock (.dalloc 72 0) = some shortBlock := rfl

/-- A call in a state that a run has reached. -/
private theorem called {allowed : State → Event → Prop} {state next : State} {event : Event}
    (reachable : machine.Reachable allowed state) (result : step state event = some next)
    (enabled : Enabled state event) (isAllowed : allowed state event) :
    machine.Reachable allowed next :=
  .step reachable enabled isAllowed result

theorem blocks_safe_oneBlock : Safe oneBlock ∧ ∀ event next, event.Allocates →
    Enabled oneBlock event → step oneBlock event = some next →
      (Safe next ↔ Meets oneBlock event) := by
  have start : machine.Reachable Meets unused := .init ⟨noMemory, rfl⟩
  have enabled : Enabled unused (.dalloc 64 4096) := ⟨by decide, .inr ⟨by decide, nofun⟩⟩
  exact blocks_safe_iff (called start unused_dalloc enabled nofun)

theorem reused_block_overlaps :
    ¬ ∀ state, machine.Reachable (fun _ _ => True) state → Safe state := by
  intro allSafe
  have start : machine.Reachable (fun _ _ => True) unused := .init ⟨noMemory, rfl⟩
  have first := called start unused_dalloc ⟨by decide, .inr ⟨by decide, nofun⟩⟩ trivial
  have second := called first oneBlock_dalloc ⟨by decide, .inl rfl⟩ trivial
  have isLive : ⟨4112, 64, 64, false⟩ ∈ twoBlocks.live :=
    List.mem_cons_of_mem _ List.mem_cons_self
  have third := called second twoBlocks_free isLive trivial
  have last := called third freedBlock_dalloc ⟨by decide, .inl rfl⟩ trivial
  exact absurd (allSafe shortBlock last).apart (by decide)

end Reused

end MallocSurvey.DumbTlsf
