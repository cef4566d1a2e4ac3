import MallocSurvey.DumbTlsf.System

/-! # The blocks of dumb_tlsf tile reserved memory

Every byte of a chunk belongs to one block in use, one freed block or the uncarved
tail. A call keeps that as long as the block it reuses is large enough. -/

namespace MallocSurvey.DumbTlsf

open Library

/-- Blocks have whole words, except those handed out by the system allocator. -/
def GoodRoom (room : Nat) : Prop := room % 8 = 0 ∨ maxSize < room

theorem GoodRoom.esizeof_le {room request : Nat} (good : GoodRoom room)
    (small : request ≤ maxSize) (fits : request ≤ room) : esizeof request ≤ room := by
  rcases good with words | large
  · unfold esizeof
    omega
  · exact (DumbTlsf.esizeof_le small).trans (Nat.le_of_lt large)

structure BlockOk (heap : Heap) (block : Block) : Prop where
  nonzero : block.start ≠ 0
  fits : block.header + block.size ≤ block.room
  room : GoodRoom block.room
  sizeLt : block.size < 2 ^ 64
  sizeWord : block.remembered = true → loadPointer heap.memory block.start = block.size
  fromSystem : maxSize < block.size → block.whole ∈ heap.reserved

def freeExtent (block : FreeBlock Nat) : Extent := ⟨block.start, block.room⟩

def Heap.tail (heap : Heap) : Extent := ⟨heap.limit, heap.chunkEnd - heap.limit⟩

/-- What the memory of the heap is cut into. -/
def pieces (heap : Heap) (live : List Block) (free : List (FreeBlock Nat)) : List Extent :=
  heap.tail :: (live.map Block.whole ++ free.map freeExtent)

structure Inv (heap : Heap) (live : List Block) (free : List (FreeBlock Nat)) : Prop where
  chained : Chained heap.memory heap.table free
  regionsApart : heap.reserved.Pairwise Extent.Apart
  region : ∀ region ∈ heap.reserved,
    0 < region.start ∧ 0 < region.length ∧ region.start + region.length ≤ 2 ^ 64
  apart : (pieces heap live free).Pairwise Extent.Apart
  inside : ∀ piece ∈ pieces heap live free, piece.length ≠ 0 →
    ∃ region ∈ heap.reserved, piece.Inside region
  tail : heap.limit ≤ heap.chunkEnd
  live : ∀ block ∈ live, BlockOk heap block
  free : ∀ block ∈ free, sizeofSize ≤ block.room ∧ GoodRoom block.room

theorem inv_initial (memory : Memory) : Inv (Heap.initial memory) [] [] where
  chained := .initial
  regionsApart := .nil
  region _ member := by cases member
  apart := List.pairwise_singleton _ _
  inside piece member nonempty := by
    rw [List.mem_singleton.mp member] at nonempty
    exact absurd rfl nonempty
  tail := Nat.le_refl 0
  live _ member := by cases member
  free _ member := by cases member

/-! ## Frame conditions -/

/-- The words that the allocator keeps in the blocks are unchanged. -/
structure SameWords (heap : Heap) (live : List Block) (free : List (FreeBlock Nat))
    (memory : Memory) : Prop where
  free : ∀ block ∈ free, loadPointer memory block.start = loadPointer heap.memory block.start
  live : ∀ block ∈ live, block.remembered = true →
    loadPointer memory block.start = loadPointer heap.memory block.start

theorem Inv.setMemory {heap : Heap} {live : List Block} {free : List (FreeBlock Nat)}
    {memory : Memory} (inv : Inv heap live free) (same : SameWords heap live free memory) :
    Inv { heap with memory := memory } live free where
  chained := inv.chained.congr same.free
  regionsApart := inv.regionsApart
  region := inv.region
  apart := inv.apart
  inside := inv.inside
  tail := inv.tail
  live block member :=
    { inv.live block member with
      sizeWord := fun remembered =>
        (same.live block member remembered).trans ((inv.live block member).sizeWord remembered) }
  free := inv.free

/-- Bytes outside the free blocks and outside the headers of blocks in use. -/
theorem sameWords_of_outside {heap : Heap} {live : List Block}
    {free : List (FreeBlock Nat)} {memory : Memory}
    (outsideFree : ∀ block ∈ free, ∀ place, block.start ≤ place → place < block.start + 8 →
      memory place = heap.memory place)
    (outsideLive : ∀ block ∈ live, block.remembered = true →
      ∀ place, block.start ≤ place → place < block.start + 8 →
        memory place = heap.memory place) : SameWords heap live free memory where
  free block member := loadPointer_congr fun place above below =>
    outsideFree block member place above below
  live block member remembered := loadPointer_congr fun place above below =>
    outsideLive block member remembered place above below

section Pieces

variable {heap : Heap} {live : List Block} {free : List (FreeBlock Nat)}

theorem Inv.free_apart (inv : Inv heap live free) {block : Block} (isLive : block ∈ live)
    {other : FreeBlock Nat} (isFree : other ∈ free) :
    block.whole.Apart (freeExtent other) := by
  have apart := (List.pairwise_append.mp (List.pairwise_cons.mp inv.apart).2).2.2
  exact apart _ (List.mem_map_of_mem isLive) _ (List.mem_map_of_mem isFree)

theorem Inv.live_apart (inv : Inv heap live free) :
    (live.map Block.whole).Pairwise Extent.Apart :=
  (List.pairwise_append.mp (List.pairwise_cons.mp inv.apart).2).1

theorem BlockOk.header_le {block : Block} (ok : BlockOk heap block)
    (remembered : block.remembered = true) : 8 ≤ block.room := by
  have fits := ok.fits
  rw [Block.header, if_pos remembered] at fits
  exact (Nat.le_add_right _ _).trans fits

theorem whole_inside (inv : Inv heap live free) {block : Block} (isLive : block ∈ live)
    (nonempty : block.room ≠ 0) : ∃ region ∈ heap.reserved, block.whole.Inside region :=
  inv.inside _ (List.mem_cons_of_mem _ (List.mem_append_left _ (List.mem_map_of_mem isLive)))
    nonempty

theorem freeExtent_inside (inv : Inv heap live free) {block : FreeBlock Nat}
    (isFree : block ∈ free) : ∃ region ∈ heap.reserved, (freeExtent block).Inside region :=
  inv.inside _ (List.mem_cons_of_mem _ (List.mem_append_right _ (List.mem_map_of_mem isFree)))
    (Nat.ne_of_gt (Nat.lt_of_lt_of_le (by decide) (inv.free block isFree).1))

theorem Inv.free_start_lt (inv : Inv heap live free) {block : FreeBlock Nat}
    (isFree : block ∈ free) : block.start < 2 ^ 64 := by
  obtain ⟨region, isRegion, _, above⟩ := freeExtent_inside inv isFree
  have bound := (inv.region region isRegion).2.2
  have large := (inv.free block isFree).1
  simp only [freeExtent, sizeofSize] at above large
  omega

end Pieces

/-! ## Writes of the program -/

theorem Inv.live_ne_apart {heap : Heap} {live : List Block} {free : List (FreeBlock Nat)}
    (inv : Inv heap live free) {left right : Block} (leftLive : left ∈ live)
    (rightLive : right ∈ live) (different : left ≠ right) :
    left.whole.Apart right.whole :=
  Extent.apart_of_map inv.live_apart leftLive rightLive different

theorem Inv.write {heap : Heap} {live : List Block} {free : List (FreeBlock Nat)}
    (inv : Inv heap live free) {block : Block} (isLive : block ∈ live) {place : Nat}
    (above : block.address ≤ place) (below : place < block.address + block.size)
    (value : UInt8) :
    Inv { heap with memory := Function.update heap.memory place value } live free := by
  have fits := (inv.live block isLive).fits
  apply inv.setMemory
  apply sameWords_of_outside
  · intro other isFree byte byteAbove byteBelow
    apply Function.update_of_ne
    have apart := inv.free_apart isLive isFree
    have large := (inv.free other isFree).1
    simp only [Extent.Apart, Apart, Block.whole, freeExtent, Block.address, sizeofSize]
      at apart large above below
    omega
  · intro other otherLive remembered byte byteAbove byteBelow
    apply Function.update_of_ne
    by_cases same : other = block
    · subst same
      simp only [Block.address, Block.header, remembered, if_true, sizeofSize] at above
      omega
    · have apart := inv.live_ne_apart otherLive isLive same
      have header := (inv.live other otherLive).header_le remembered
      simp only [Extent.Apart, Apart, Block.whole, Block.address] at apart above below
      omega

/-! ## Where a block comes from -/

theorem BlockOk.congr {heap other : Heap} {block : Block} (ok : BlockOk heap block)
    (sameMemory : other.memory = heap.memory)
    (kept : ∀ region ∈ heap.reserved, region ∈ other.reserved) : BlockOk other block :=
  { ok with
    sizeWord := fun remembered => sameMemory ▸ ok.sizeWord remembered
    fromSystem := fun large => kept _ (ok.fromSystem large) }

section Sources

variable {heap : Heap} {live : List Block} {free : List (FreeBlock Nat)}

/-- The first block of a list is handed out again. -/
theorem Inv.reuse (inv : Inv heap live free) {index size : Nat} {block : FreeBlock Nat}
    (found : firstOf index free = some block) (fits : size ≤ block.room)
    (small : size ≤ maxSize) :
    Inv { heap with table :=
        Function.update heap.table index (loadPointer heap.memory (heap.table index)) }
      (⟨block.start, block.room, size, false⟩ :: live) (dropFirst index free) := by
  have isFree := (firstOf_mem found).1
  have perm : (pieces heap live free).Perm (heap.tail :: (freeExtent block ::
      (live.map Block.whole ++ (dropFirst index free).map freeExtent))) := by
    apply List.Perm.cons
    exact (List.Perm.append_left _ ((dropFirst_perm found).map freeExtent)).trans
      List.perm_middle
  exact {
    chained := inv.chained.pop found
    regionsApart := inv.regionsApart
    region := inv.region
    apart := (Extent.pairwise_perm perm).mp inv.apart
    inside := fun piece member => inv.inside piece (perm.mem_iff.mpr member)
    tail := inv.tail
    live := by
      intro other member
      rcases List.mem_cons.mp member with isNew | member
      · subst isNew
        exact {
          nonzero := inv.chained.start_ne_zero isFree
          fits := (Nat.zero_add size).symm ▸ fits
          room := (inv.free block isFree).2
          sizeLt := Nat.lt_of_le_of_lt small (by decide)
          sizeWord := nofun
          fromSystem := fun large => absurd small (Nat.not_le_of_lt large) }
      · exact (inv.live other member).congr rfl fun _ => id
    free := fun other member =>
      inv.free other ((dropFirst_perm found).mem_iff.mpr (List.mem_cons_of_mem _ member)) }

/-- The front of the uncarved tail is handed out. -/
theorem Inv.carve (inv : Inv heap live free) {esize size : Nat} (nonzero : heap.limit ≠ 0)
    (room : heap.limit + esize ≤ heap.chunkEnd) (words : esize % 8 = 0)
    (fits : size ≤ esize) (small : size ≤ maxSize) :
    Inv { heap with limit := heap.limit + esize }
      (⟨heap.limit, esize, size, false⟩ :: live) free := by
  have split : heap.tail = ⟨heap.limit, esize + (heap.chunkEnd - (heap.limit + esize))⟩ := by
    rw [Heap.tail]
    congr 1
    omega
  have apart := inv.apart
  rw [pieces, split] at apart
  exact {
    chained := inv.chained
    regionsApart := inv.regionsApart
    region := inv.region
    apart := (Extent.pairwise_perm (List.Perm.swap _ _ _)).mp (Extent.pairwise_split apart)
    inside := by
      have tailInside : ∀ piece : Extent, piece.Inside heap.tail → piece.length ≠ 0 →
          ∃ region ∈ heap.reserved, piece.Inside region := by
        intro piece inTail nonempty
        obtain ⟨region, isRegion, inside⟩ := inv.inside heap.tail List.mem_cons_self (by
          unfold Extent.Inside at inTail
          omega)
        refine ⟨region, isRegion, ?_⟩
        unfold Extent.Inside at inTail inside ⊢
        omega
      intro piece member nonempty
      rcases List.mem_cons.mp member with isTail | member
      · refine tailInside piece ?_ nonempty
        rw [isTail, split]
        exact ⟨Nat.le_add_right _ _, by simp only [Heap.tail]; omega⟩
      · rcases List.mem_cons.mp member with isNew | member
        · refine tailInside piece ?_ nonempty
          rw [isNew, split]
          exact ⟨Nat.le_refl _, by simp only [Block.whole]; omega⟩
        · exact inv.inside piece (List.mem_cons_of_mem _ member) nonempty
    tail := room
    live := by
      intro other member
      rcases List.mem_cons.mp member with isNew | member
      · subst isNew
        exact {
          nonzero := nonzero
          fits := (Nat.zero_add size).symm ▸ fits
          room := .inl words
          sizeLt := Nat.lt_of_le_of_lt small (by decide)
          sizeWord := nofun
          fromSystem := fun large => absurd small (Nat.not_le_of_lt large) }
      · exact (inv.live other member).congr rfl fun _ => id
    free := inv.free }

/-- Memory that the system allocator has just handed out. -/
structure Fresh (heap : Heap) (region : Extent) : Prop where
  nonzero : 0 < region.start
  nonempty : 0 < region.length
  bound : region.start + region.length ≤ 2 ^ 64
  apart : ∀ other ∈ heap.reserved, region.Apart other

theorem Fresh.of_answers {size answer : Nat} (answers : Answers heap.reserved size answer)
    (nonzero : answer ≠ 0) (nonempty : 0 < size) : Fresh heap ⟨answer, size⟩ := by
  rcases answers with isNull | ⟨bound, apart⟩
  · exact absurd isNull nonzero
  · exact ⟨Nat.pos_of_ne_zero nonzero, nonempty, bound, apart⟩

theorem Inv.fresh_apart (inv : Inv heap live free) {region : Extent}
    (fresh : Fresh heap region) {piece : Extent} (member : piece ∈ pieces heap live free) :
    region.Apart piece := by
  by_cases empty : piece.length = 0
  · exact .inr (.inl empty)
  · obtain ⟨other, isRegion, inside⟩ := inv.inside piece member empty
    exact ((fresh.apart other isRegion).symm.inside inside).symm

theorem Inv.reserve (inv : Inv heap live free) {region : Extent}
    (fresh : Fresh heap region) :
    Inv { heap with reserved := region :: heap.reserved } live free where
  chained := inv.chained
  regionsApart := List.pairwise_cons.mpr ⟨fresh.apart, inv.regionsApart⟩
  region := by
    intro other member
    rcases List.mem_cons.mp member with isFresh | member
    · exact isFresh ▸ ⟨fresh.nonzero, fresh.nonempty, fresh.bound⟩
    · exact inv.region other member
  apart := inv.apart
  inside := by
    intro piece member nonempty
    obtain ⟨other, isRegion, inside⟩ := inv.inside piece member nonempty
    exact ⟨other, List.mem_cons_of_mem _ isRegion, inside⟩
  tail := inv.tail
  live := fun block member =>
    (inv.live block member).congr rfl fun _ => List.mem_cons_of_mem _
  free := inv.free

/-- A block of the system allocator. -/
theorem Inv.mallocBlock (inv : Inv heap live free) {answer size : Nat}
    (fresh : Fresh heap ⟨answer, size⟩) (large : maxSize < size) (sizeLt : size < 2 ^ 64) :
    Inv { heap with reserved := ⟨answer, size⟩ :: heap.reserved }
      (⟨answer, size, size, false⟩ :: live) free := by
  have kept := inv.reserve fresh
  exact { kept with
    apart := by
      refine (Extent.pairwise_perm (List.Perm.swap _ _ _)).mp (List.pairwise_cons.mpr ?_)
      exact ⟨fun piece member => inv.fresh_apart fresh member, inv.apart⟩
    inside := by
      intro piece member nonempty
      rcases List.mem_cons.mp member with isTail | member
      · exact kept.inside piece (isTail ▸ List.mem_cons_self) nonempty
      · rcases List.mem_cons.mp member with isNew | member
        · exact ⟨_, List.mem_cons_self, isNew ▸ ⟨Nat.le_refl _, Nat.le_refl _⟩⟩
        · exact kept.inside piece (List.mem_cons_of_mem _ member) nonempty
    live := by
      intro other member
      rcases List.mem_cons.mp member with isNew | member
      · subst isNew
        exact {
          nonzero := Nat.ne_of_gt fresh.nonzero
          fits := Nat.le_of_eq (Nat.zero_add size)
          room := .inr large
          sizeLt := sizeLt
          sizeWord := nofun
          fromSystem := fun _ => List.mem_cons_self }
      · exact kept.live other member }

/-- Memory outside the pieces may be written. -/
theorem Inv.sameWords (inv : Inv heap live free) {memory : Memory} {region : Extent}
    (apart : ∀ piece ∈ pieces heap live free, region.Apart piece)
    (same : ∀ place, place < region.start ∨ region.start + region.length ≤ place →
      memory place = heap.memory place) : SameWords heap live free memory := by
  apply sameWords_of_outside
  · intro block isFree place above below
    have isApart := apart (freeExtent block) (List.mem_cons_of_mem _
      (List.mem_append_right _ (List.mem_map_of_mem isFree)))
    have large := (inv.free block isFree).1
    by_cases empty : region.length = 0
    · exact same place (by omega)
    · apply same
      simp only [Extent.Apart, Apart, freeExtent, sizeofSize] at isApart large
      omega
  · intro block isLive remembered place above below
    have isApart := apart block.whole (List.mem_cons_of_mem _
      (List.mem_append_left _ (List.mem_map_of_mem isLive)))
    have large := (inv.live block isLive).header_le remembered
    by_cases empty : region.length = 0
    · exact same place (by omega)
    · apply same
      simp only [Extent.Apart, Apart, Block.whole] at isApart
      omega

/-- The tail of a new chunk starts behind its header. -/
theorem chunkTail_inside (answer : Nat) :
    Extent.Inside ⟨answer + sizeofHeader, answer + allocSize - (answer + sizeofHeader)⟩
        ⟨answer, allocSize⟩ ∧
      answer + sizeofHeader ≤ answer + allocSize := by
  have large : sizeofHeader ≤ allocSize := by decide
  unfold Extent.Inside
  simp only
  omega

theorem Inv.newChunk (inv : Inv heap live free) {next : Heap} {answer : Nat}
    (answers : Answers heap.reserved allocSize answer)
    (result : newChunk heap answer = some next) :
    Inv next live free ∧ next.limit = answer + sizeofHeader ∧
      next.chunkEnd = answer + allocSize ∧ next.table = heap.table := by
  unfold DumbTlsf.newChunk at result
  split at result
  · cases result
  · next nonzero =>
    cases result
    have fresh : Fresh heap ⟨answer, allocSize⟩ := .of_answers answers nonzero (by decide)
    have reserved := inv.reserve fresh
    have same : SameWords heap live free (storePointer
        (storePointer heap.memory answer heap.res) (answer + 8) allocSize) := by
      apply inv.sameWords (fun piece member => inv.fresh_apart fresh member)
      intro place outside
      simp only [allocSize] at outside
      unfold storePointer
      rw [storeBytes_outside (by omega), storeBytes_outside (by omega)]
    have written := reserved.setMemory ⟨same.free, same.live⟩
    refine ⟨?_, rfl, rfl, ?_⟩
    · rw [allocator, if_neg nonzero]
      exact { written with
        apart := by
          refine List.pairwise_cons.mpr ⟨?_, (List.pairwise_cons.mp inv.apart).2⟩
          intro piece member
          exact (inv.fresh_apart fresh (List.mem_cons_of_mem _ member)).inside
            (chunkTail_inside answer).1
        inside := by
          intro piece member nonempty
          rcases List.mem_cons.mp member with isTail | member
          · exact ⟨_, List.mem_cons_self, isTail ▸ (chunkTail_inside answer).1⟩
          · exact written.inside piece (List.mem_cons_of_mem _ member) nonempty
        tail := (chunkTail_inside answer).2
        live := fun block member => (written.live block member).congr rfl fun _ => id }
    · rw [allocator, if_neg nonzero]

end Sources

end MallocSurvey.DumbTlsf
