import MallocSurvey.Library.FreeLists
import MallocSurvey.Winnie3.Pool

/-! # The blocks of the chunks

The blocks in use and the free ones lie apart from each other in the storage of the
chunks. The free list of a size is forgotten when a clean leaves blocks on it. -/

namespace MallocSurvey.Winnie3

open Library

variable {pools : Pools} {live : List Block} {free : List (FreeBlock Nat)} {stale : Nat → Bool}
  {size start : Nat}

def freeExtent (block : FreeBlock Nat) : Extent := ⟨block.start, block.room⟩

/-- Where the blocks of a chunk are. -/
def storage (chunk : Extent) : Extent := ⟨chunk.start + sizeofHeader, chunkSize⟩

/-- Where the links of a chunk and of a free block are. -/
def word (start : Nat) : Extent := ⟨start, 8⟩

def pieces (live : List Block) (free : List (FreeBlock Nat)) : List Extent :=
  live.map Block.extent ++ free.map freeExtent

def heads (pools : Pools) (stale : Nat → Bool) (size : Nat) : Nat :=
  if stale size then 0 else (pools.state size).firstFree

structure ChunkOk (chunk : Extent) : Prop where
  nonzero : chunk.start ≠ 0
  length : chunk.length = chunkSize + sizeofHeader
  bound : chunk.start + (chunkSize + sizeofHeader) ≤ 2 ^ 64

structure Blocks (pools : Pools) (live : List Block) (free : List (FreeBlock Nat))
    (stale : Nat → Bool) : Prop where
  chained : Chained pools.memory (heads pools stale) free
  chunksApart : pools.allocated.Pairwise Extent.Apart
  chunkOk : ∀ chunk ∈ pools.allocated, ChunkOk chunk
  apart : (pieces live free).Pairwise Extent.Apart
  inside : ∀ piece ∈ pieces live free, ∃ chunk ∈ pools.allocated, piece.Inside (storage chunk)
  liveOk : ∀ block ∈ live, 8 ≤ block.size ∧ stale block.size = false
  freeOk : ∀ block ∈ free, block.room = block.bin ∧ 8 ≤ block.bin

/-- The word at the start of a piece is the piece's. -/
theorem word_inside {piece : Extent} (wide : 8 ≤ piece.length) :
    (word piece.start).Inside piece :=
  ⟨Nat.le_refl _, Nat.add_le_add_left wide _⟩

theorem apart_words {left right : Nat} (apart : (word left).Apart (word right)) :
    Apart left 8 right 8 := by
  rcases apart with zero | zero | apart
  · cases zero
  · cases zero
  · exact apart

/-- The word in front of a chunk is in no block. -/
theorem header_apart {pools : Pools} (chunksApart : pools.allocated.Pairwise Extent.Apart)
    (chunkOk : ∀ chunk ∈ pools.allocated, ChunkOk chunk) {chunk other : Extent}
    (member : chunk ∈ pools.allocated) (otherMember : other ∈ pools.allocated)
    {piece : Extent} (inside : piece.Inside (storage other)) :
    (word chunk.start).Apart piece := by
  have ok := chunkOk chunk member
  by_cases same : chunk = other
  · subst same
    simp only [Extent.Apart, Extent.Inside, storage, word, sizeofHeader, Apart] at *
    omega
  · have : Std.Symm Extent.Apart := ⟨fun _ _ => Extent.Apart.symm⟩
    have apart := chunksApart.forall member otherMember same
    have otherOk := chunkOk other otherMember
    have length := ok.length
    have otherLength := otherOk.length
    simp only [Extent.Apart, Extent.Inside, storage, word, sizeofHeader, chunkSize, Apart] at *
    omega

namespace Blocks

variable (blocks : Blocks pools live free stale)
include blocks

theorem free_wide {block : FreeBlock Nat} (member : block ∈ free) : 8 ≤ (freeExtent block).length := by
  have ok := blocks.freeOk block member
  change 8 ≤ block.room
  omega

theorem start_lt {block : FreeBlock Nat} (member : block ∈ free) : block.start < 2 ^ 64 := by
  have wide := blocks.free_wide member
  obtain ⟨chunk, isChunk, inside⟩ :=
    blocks.inside _ (List.mem_append_right _ (List.mem_map_of_mem member))
  have bound := (blocks.chunkOk chunk isChunk).bound
  simp only [Extent.Inside, storage, sizeofHeader, chunkSize, freeExtent] at *
  omega

/-- A block that overlaps no other one becomes free. -/
theorem push (wide : 8 ≤ size) (notStale : stale size = false) (nonzero : start ≠ 0)
    (apart : ∀ piece ∈ pieces live free, Extent.Apart ⟨start, size⟩ piece)
    (inside : ∃ chunk ∈ pools.allocated, Extent.Inside ⟨start, size⟩ (storage chunk)) :
    Blocks (pools.Deallocate size start) live (⟨size, start, size⟩ :: free) stale where
  chained := by
    have pushed := @Chained.push Nat _ _ _ _ blocks.chained ⟨size, start, size⟩ nonzero
      (fun other member => blocks.start_lt member)
      (fun other member => apart_words (Extent.Apart.parts
        (apart _ (List.mem_append_right _ (List.mem_map_of_mem member)))
        (word_inside wide) (word_inside (blocks.free_wide member))))
    have sameHeads : heads (pools.Deallocate size start) stale =
        Function.update (heads pools stale) size start := by
      funext other
      unfold heads Pools.Deallocate
      by_cases same : other = size
      · rw [same, notStale]
        simp
      · simp [Function.update_of_ne same]
    have head : heads pools stale size = (pools.state size).firstFree := by
      unfold heads
      rw [notStale]
      rfl
    rw [sameHeads]
    rw [head] at pushed
    exact pushed
  chunksApart := blocks.chunksApart
  chunkOk := blocks.chunkOk
  apart := by
    have perm : (pieces live (⟨size, start, size⟩ :: free)).Perm
        (⟨start, size⟩ :: pieces live free) := List.perm_middle
    exact (Extent.pairwise_perm perm).mpr (List.pairwise_cons.mpr ⟨apart, blocks.apart⟩)
  inside := by
    intro piece member
    have perm : (pieces live (⟨size, start, size⟩ :: free)).Perm
        (⟨start, size⟩ :: pieces live free) := List.perm_middle
    rcases List.mem_cons.mp (perm.mem_iff.mp member) with isNew | isOld
    · rw [isNew]
      exact inside
    · exact blocks.inside piece isOld
  liveOk := blocks.liveOk
  freeOk := by
    intro block member
    rcases List.mem_cons.mp member with isNew | isOld
    · rw [isNew]
      exact ⟨rfl, wide⟩
    · exact blocks.freeOk block isOld

/-- The first free block is handed out. -/
theorem take {block : FreeBlock Nat} (notStale : stale size = false)
    (found : firstOf size free = some block) :
    Blocks (pools.take size).2 (⟨block.start, size⟩ :: live) (dropFirst size free) stale := by
  have ⟨isFree, sameBin⟩ := firstOf_mem found
  have ok := blocks.freeOk block isFree
  have perm : (pieces live free).Perm
      (freeExtent block :: pieces live (dropFirst size free)) :=
    (List.Perm.append_left _ ((dropFirst_perm found).map freeExtent)).trans List.perm_middle
  have sameExtent : freeExtent block = Block.extent ⟨block.start, size⟩ := by
    rw [freeExtent, Block.extent, ok.1, sameBin]
  rw [sameExtent] at perm
  have sameHeads : heads (pools.take size).2 stale =
      Function.update (heads pools stale) size
        (loadPointer pools.memory (heads pools stale size)) := by
    funext other
    unfold heads Pools.take Pools.setState
    by_cases same : other = size
    · rw [same, notStale]
      simp
    · simp [Function.update_of_ne same]
  exact {
    chained := by
      rw [sameHeads]
      exact blocks.chained.pop found
    chunksApart := blocks.chunksApart
    chunkOk := blocks.chunkOk
    apart := (Extent.pairwise_perm perm).mp blocks.apart
    inside := fun piece member => blocks.inside piece (perm.mem_iff.mpr member)
    liveOk := by
      intro other member
      rcases List.mem_cons.mp member with isNew | member
      · rw [isNew]
        exact ⟨sameBin ▸ ok.2, notStale⟩
      · exact blocks.liveOk other member
    freeOk := fun other member =>
      blocks.freeOk other ((dropFirst_perm found).mem_iff.mpr (List.mem_cons_of_mem _ member)) }

/-- Writes outside the words of the free blocks, and other chunk lists. -/
theorem congr {pools' : Pools}
    (sameFree : ∀ size, (pools'.state size).firstFree = (pools.state size).firstFree)
    (sameWord : ∀ block ∈ free, loadPointer pools'.memory block.start =
      loadPointer pools.memory block.start)
    (sameAllocated : pools'.allocated = pools.allocated) :
    Blocks pools' live free stale where
  chained := by
    have sameHeads : heads pools' stale = heads pools stale := by
      funext size
      unfold heads
      rw [sameFree]
    rw [sameHeads]
    exact blocks.chained.congr sameWord
  chunksApart := sameAllocated ▸ blocks.chunksApart
  chunkOk := sameAllocated ▸ blocks.chunkOk
  apart := blocks.apart
  inside := sameAllocated ▸ blocks.inside
  liveOk := blocks.liveOk
  freeOk := blocks.freeOk

/-- The program writes to one of its blocks. -/
theorem write {block : Block} (isLive : block ∈ live) {place : Nat}
    (above : block.start ≤ place) (below : place < block.start + block.size) (value : UInt8) :
    Blocks { pools with memory := Function.update pools.memory place value } live free stale := by
  refine blocks.congr (fun _ => rfl) ?_ rfl
  intro other isFree
  apply loadPointer_congr
  intro byte byteAbove byteBelow
  apply Function.update_of_ne
  have apart := (List.pairwise_append.mp blocks.apart).2.2 _ (List.mem_map_of_mem isLive) _
    (List.mem_map_of_mem isFree)
  have wide := blocks.free_wide isFree
  simp only [Extent.Apart, Apart, Block.extent, freeExtent] at apart wide
  omega

/-- A live block is free again. -/
theorem deallocate {index : Nat} {block : Block} (found : live[index]? = some block) :
    Blocks (pools.Deallocate block.size block.start) (live.eraseIdx index)
      (⟨block.size, block.start, block.size⟩ :: free) stale := by
  have isLive := List.mem_of_getElem? found
  have perm : live.Perm (block :: live.eraseIdx index) := by
    obtain ⟨inRange, isBlock⟩ := List.getElem?_eq_some_iff.mp found
    exact isBlock ▸ (List.getElem_cons_eraseIdx_perm inRange).symm
  have pieces_perm : (pieces live free).Perm
      (block.extent :: pieces (live.eraseIdx index) free) :=
    (perm.map Block.extent).append_right _
  have apart := List.pairwise_cons.mp ((Extent.pairwise_perm pieces_perm).mp blocks.apart)
  obtain ⟨chunk, isChunk, inside⟩ :=
    blocks.inside block.extent (List.mem_append_left _ (List.mem_map_of_mem isLive))
  have rest : Blocks pools (live.eraseIdx index) free stale :=
    { blocks with
      apart := apart.2
      inside := fun piece member =>
        blocks.inside piece (pieces_perm.mem_iff.mpr (List.mem_cons_of_mem _ member))
      liveOk := fun other member =>
        blocks.liveOk other (perm.mem_iff.mpr (List.mem_cons_of_mem _ member)) }
  have ok := blocks.liveOk block isLive
  have nonzero : block.start ≠ 0 := by
    simp only [Extent.Inside, storage, sizeofHeader, Block.extent] at inside
    omega
  exact rest.push ok.1 ok.2 nonzero apart.1 ⟨chunk, isChunk, inside⟩

/-- Blocks next to each other become free, the last one first. -/
theorem linkBlocks (wide : 8 ≤ size) (notStale : stale size = false) {chunk : Extent}
    (isChunk : chunk ∈ pools.allocated) {count : Nat} (fits : count * size ≤ chunkSize)
    (apart : ∀ piece ∈ pieces live free,
      Extent.Apart ⟨chunk.start + sizeofHeader, count * size⟩ piece) :
    ∃ free, Blocks (Pools.linkBlocks size (chunk.start + sizeofHeader) count pools) live free
      stale := by
  induction count generalizing pools free with
  | zero => exact ⟨free, blocks⟩
  | succ count induction =>
      have product : (count + 1) * size = count * size + size := Nat.succ_mul count size
      rw [product] at fits apart
      have inside : Extent.Inside ⟨chunk.start + sizeofHeader + count * size, size⟩
          ⟨chunk.start + sizeofHeader, count * size + size⟩ :=
        ⟨Nat.le_add_right _ _, Nat.le_of_eq (Nat.add_assoc _ _ _)⟩
      have pushed : Blocks
          (pools.Deallocate size (chunk.start + sizeofHeader + count * size)) live
          (⟨size, chunk.start + sizeofHeader + count * size, size⟩ :: free) stale :=
        blocks.push wide notStale (by simp only [sizeofHeader]; omega)
          (fun piece member => (apart piece member).inside inside)
          ⟨chunk, isChunk, ⟨Nat.le_add_right _ _, by simp only [storage]; omega⟩⟩
      refine induction pushed isChunk (by omega) ?_
      intro piece member
      have perm : (pieces live (⟨size, chunk.start + sizeofHeader + count * size, size⟩ ::
          free)).Perm (⟨chunk.start + sizeofHeader + count * size, size⟩ :: pieces live free) :=
        List.perm_middle
      rcases List.mem_cons.mp (perm.mem_iff.mp member) with isNew | isOld
      · rw [isNew]
        exact .inr (.inr (.inl (Nat.le_refl _)))
      · exact (apart piece isOld).inside ⟨Nat.le_refl _, by simp only; omega⟩

end Blocks

end MallocSurvey.Winnie3
