import MallocSurvey.Winnie2.System

/-! # What every call of the adapter keeps

The memory of the pools is cut into the blocks in use and the free ones, and the
blocks of a bin are those that the large blocks of the bin were carved into. -/

namespace MallocSurvey.Winnie2

open Library

def freeExtent (block : FreeBlock Nat) : Extent := ⟨block.start, block.room⟩

structure BlockOk (sizeofT : Nat) (fa : FixedAllocator) (chunks : List (Nat × Nat))
    (block : Block) : Prop where
  nonzero : block.start ≠ 0
  word : 8 ≤ block.count * sizeofT
  int : block.count * sizeofT < 2 ^ 31
  source : block.source = some (route (block.count * sizeofT : Nat))
  pooled : block.count * sizeofT ≤ 256 → FromBin chunks (block.count * sizeofT) block.start
  fromHeap : 256 < block.count * sizeofT → block.whole sizeofT ∈ fa.reserved

def Block.IsNull (block : Block) : Prop := block.count = 0 ∧ block.source = none

structure FreeOk (chunks : List (Nat × Nat)) (block : FreeBlock Nat) : Prop where
  room : block.room = block.bin
  word : 8 ≤ block.bin
  small : block.bin ≤ 256
  pooled : FromBin chunks block.bin block.start

def pieces (sizeofT : Nat) (live : List Block) (free : List (FreeBlock Nat)) : List Extent :=
  live.map (Block.whole sizeofT) ++ free.map freeExtent

structure Inv (sizeofT : Nat) (fa : FixedAllocator) (live : List Block)
    (free : List (FreeBlock Nat)) (chunks : List (Nat × Nat)) : Prop where
  chained : Chained fa.memory fa.firstFrees free
  regionsApart : fa.reserved.Pairwise Extent.Apart
  region : ∀ region ∈ fa.reserved,
    0 < region.start ∧ 0 < region.length ∧ region.start + region.length ≤ 2 ^ 64
  apart : (pieces sizeofT live free).Pairwise Extent.Apart
  inside : ∀ piece ∈ pieces sizeofT live free, piece.length ≠ 0 →
    ∃ region ∈ fa.reserved, piece.Inside region
  liveOk : ∀ block ∈ live, block.IsNull ∨ BlockOk sizeofT fa chunks block
  freeOk : ∀ block ∈ free, FreeOk chunks block
  /-- Every block of a bin is free or in use. -/
  counts : ∀ size : Nat,
    free.countP (fun block => block.bin = size) +
        live.countP (fun block => block.source = some (.bin size)) =
      chunks.countP (fun chunk => chunk.1 = size) * nBlocks size

theorem inv_initial (sizeofT : Nat) (memory : Memory) :
    Inv sizeofT (.initial memory) [] [] [] where
  chained := .initial
  regionsApart := .nil
  region _ member := by cases member
  apart := .nil
  inside _ member := by cases member
  liveOk _ member := by cases member
  freeOk _ member := by cases member
  counts size := by simp

theorem route_pool {size : Nat} (small : size ≤ 256) : route size = .bin size := by
  rw [route, if_neg (by omega)]

theorem route_heap {size : Nat} (large : 256 < size) : route size = .heap := by
  rw [route, if_pos (by omega)]

theorem granularity_eq {sizeofT count : Nat} (small : count * sizeofT < 2 ^ 31) :
    granularity sizeofT count = (count * sizeofT : Nat) := by
  rw [granularity, Nat.mod_eq_of_lt (by omega)]
  exact toInt_of_lt small

theorem nBlocks_pos {size : Nat} (word : 8 ≤ size) (small : size ≤ 256) : 0 < nBlocks size :=
  Nat.div_pos (by unfold largeBlockSize; omega) (by omega)

theorem nBlocks_mul_le (size : Nat) : nBlocks size * size ≤ largeBlockSize :=
  Nat.div_mul_le_self _ _

section Facts

variable {sizeofT : Nat} {fa : FixedAllocator} {live : List Block}
  {free : List (FreeBlock Nat)} {chunks : List (Nat × Nat)}

theorem Inv.free_apart (inv : Inv sizeofT fa live free chunks) {block : Block}
    (isLive : block ∈ live) {other : FreeBlock Nat} (isFree : other ∈ free) :
    (block.whole sizeofT).Apart (freeExtent other) :=
  (List.pairwise_append.mp inv.apart).2.2 _ (List.mem_map_of_mem isLive) _
    (List.mem_map_of_mem isFree)

theorem FreeOk.large {block : FreeBlock Nat} (ok : FreeOk chunks block) : 8 ≤ block.room :=
  ok.room ▸ ok.word

theorem Inv.free_start_lt (inv : Inv sizeofT fa live free chunks) {block : FreeBlock Nat}
    (isFree : block ∈ free) : block.start < 2 ^ 64 := by
  have large := (inv.freeOk block isFree).large
  obtain ⟨region, isRegion, _, above⟩ :=
    inv.inside _ (List.mem_append_right _ (List.mem_map_of_mem isFree))
      (show block.room ≠ 0 by omega)
  have bound := (inv.region region isRegion).2.2
  simp only [freeExtent] at above
  omega

theorem FromBin.mono {size start : Nat} (fromBin : FromBin chunks size start)
    (chunk : Nat × Nat) : FromBin (chunk :: chunks) size start := by
  obtain ⟨other, member, same, isPiece⟩ := fromBin
  exact ⟨other, List.mem_cons_of_mem _ member, same, isPiece⟩

theorem BlockOk.congr {other : FixedAllocator} {block : Block}
    (ok : BlockOk sizeofT fa chunks block)
    (kept : ∀ region ∈ fa.reserved, region ∈ other.reserved) :
    BlockOk sizeofT other chunks block :=
  { ok with fromHeap := fun large => kept _ (ok.fromHeap large) }

/-- Writes outside the free blocks. -/
theorem Inv.setMemory {memory : Memory} (inv : Inv sizeofT fa live free chunks)
    (same : ∀ block ∈ free, ∀ place, block.start ≤ place → place < block.start + 8 →
      memory place = fa.memory place) :
    Inv sizeofT { fa with memory := memory } live free chunks :=
  { inv with
    chained := inv.chained.congr fun block member =>
      loadPointer_congr fun place above below => same block member place above below
    liveOk := fun block member => (inv.liveOk block member).imp id fun ok => ok.congr fun _ => id }

theorem Inv.write (inv : Inv sizeofT fa live free chunks) {block : Block}
    (isLive : block ∈ live) {place : Nat} (above : block.start ≤ place)
    (below : place < block.start + block.count * sizeofT) (value : UInt8) :
    Inv sizeofT { fa with memory := Function.update fa.memory place value } live free
      chunks := by
  apply inv.setMemory
  intro other isFree byte byteAbove byteBelow
  apply Function.update_of_ne
  have apart := inv.free_apart isLive isFree
  have large := (inv.freeOk other isFree).large
  simp only [Extent.Apart, Apart, Block.whole, freeExtent] at apart
  omega

/-- Memory that `malloc` has just returned. -/
structure Fresh (fa : FixedAllocator) (region : Extent) : Prop where
  nonzero : 0 < region.start
  nonempty : 0 < region.length
  bound : region.start + region.length ≤ 2 ^ 64
  apart : ∀ other ∈ fa.reserved, region.Apart other

theorem Fresh.of_answers {size answer : Nat} (answers : Answers fa.reserved size answer)
    (nonzero : answer ≠ 0) (nonempty : 0 < size) : Fresh fa ⟨answer, size⟩ := by
  rcases answers with isNull | ⟨bound, apart⟩
  · exact absurd isNull nonzero
  · exact ⟨Nat.pos_of_ne_zero nonzero, nonempty, bound, apart⟩

theorem Inv.fresh_apart (inv : Inv sizeofT fa live free chunks) {region : Extent}
    (fresh : Fresh fa region) {piece : Extent} (member : piece ∈ pieces sizeofT live free) :
    region.Apart piece := by
  by_cases empty : piece.length = 0
  · exact .inr (.inl empty)
  · obtain ⟨other, isRegion, inside⟩ := inv.inside piece member empty
    exact ((fresh.apart other isRegion).symm.inside inside).symm

theorem Inv.reserve (inv : Inv sizeofT fa live free chunks) {region : Extent}
    (fresh : Fresh fa region) :
    Inv sizeofT { fa with reserved := region :: fa.reserved } live free chunks where
  chained := inv.chained
  regionsApart := List.pairwise_cons.mpr ⟨fresh.apart, inv.regionsApart⟩
  region := by
    intro other member
    rcases List.mem_cons.mp member with isFresh | member
    · exact isFresh ▸ ⟨fresh.nonzero, fresh.nonempty, fresh.bound⟩
    · exact inv.region other member
  apart := inv.apart
  inside := by
    intro piece member nonempty
    obtain ⟨other, isRegion, inside⟩ := inv.inside piece member nonempty
    exact ⟨other, List.mem_cons_of_mem _ isRegion, inside⟩
  liveOk := fun block member =>
    (inv.liveOk block member).imp id fun ok => ok.congr fun _ => List.mem_cons_of_mem _
  freeOk := inv.freeOk
  counts := inv.counts

end Facts

/-! ## Calls of `allocate` -/

section Allocate

variable {sizeofT : Nat} {fa : FixedAllocator} {live : List Block}
  {free : List (FreeBlock Nat)} {chunks : List (Nat × Nat)}

theorem Inv.null (inv : Inv sizeofT fa live free chunks) (start : Nat) :
    Inv sizeofT fa (⟨start, 0, none⟩ :: live) free chunks where
  chained := inv.chained
  regionsApart := inv.regionsApart
  region := inv.region
  apart := by
    refine List.pairwise_cons.mpr ⟨?_, inv.apart⟩
    intro piece _
    exact .inl (Nat.zero_mul _)
  inside := by
    intro piece member nonempty
    rcases List.mem_cons.mp member with isNull | member
    · rw [isNull] at nonempty
      exact absurd (Nat.zero_mul _) nonempty
    · exact inv.inside piece member nonempty
  liveOk := by
    intro block member
    rcases List.mem_cons.mp member with isNull | member
    · exact .inl (isNull ▸ ⟨rfl, rfl⟩)
    · exact inv.liveOk block member
  freeOk := inv.freeOk
  counts := by
    intro size
    rw [List.countP_cons_of_neg (by simp)]
    exact inv.counts size

/-- A block of more than 256 bytes comes from `malloc`. -/
theorem Inv.mallocBlock (inv : Inv sizeofT fa live free chunks) {answer count : Nat}
    (fresh : Fresh fa ⟨answer, count * sizeofT⟩) (large : 256 < count * sizeofT)
    (int : count * sizeofT < 2 ^ 31) :
    Inv sizeofT { fa with reserved := ⟨answer, count * sizeofT⟩ :: fa.reserved }
      (⟨answer, count, some .heap⟩ :: live) free chunks := by
  have kept := inv.reserve fresh
  exact { kept with
    apart := List.pairwise_cons.mpr ⟨fun _ member => inv.fresh_apart fresh member, inv.apart⟩
    inside := by
      intro piece member nonempty
      rcases List.mem_cons.mp member with isNew | member
      · exact ⟨_, List.mem_cons_self, isNew ▸ ⟨Nat.le_refl _, Nat.le_refl _⟩⟩
      · exact kept.inside piece member nonempty
    liveOk := by
      intro block member
      rcases List.mem_cons.mp member with isNew | member
      · subst isNew
        exact .inr {
          nonzero := Nat.ne_of_gt fresh.nonzero
          word := by simp only; omega
          int := int
          source := congrArg some (route_heap large).symm
          pooled := fun small => absurd small (Nat.not_le_of_lt large)
          fromHeap := fun _ => List.mem_cons_self }
      · exact kept.liveOk block member
    counts := by
      intro size
      rw [List.countP_cons_of_neg (by simp)]
      exact inv.counts size }

/-- The first block of a bin is handed out. -/
theorem Inv.take (inv : Inv sizeofT fa live free chunks) {count : Nat}
    (word : 8 ≤ count * sizeofT) (small : count * sizeofT ≤ 256) {block : FreeBlock Nat}
    (found : firstOf (count * sizeofT) free = some block) :
    Inv sizeofT
      { fa with firstFrees := Function.update fa.firstFrees (count * sizeofT)
                  (loadPointer fa.memory (fa.firstFrees (count * sizeofT))) }
      (⟨block.start, count, some (.bin (count * sizeofT : Nat))⟩ :: live)
      (dropFirst (count * sizeofT) free) chunks := by
  have ⟨isFree, sameBin⟩ := firstOf_mem found
  have ok := inv.freeOk block isFree
  have sameRoom : block.room = count * sizeofT := ok.room.trans sameBin
  have perm : (pieces sizeofT live free).Perm
      (freeExtent block :: pieces sizeofT live (dropFirst (count * sizeofT) free)) :=
    (List.Perm.append_left _ ((dropFirst_perm found).map freeExtent)).trans
      List.perm_middle
  have sameExtent : freeExtent block = Block.whole sizeofT
      ⟨block.start, count, some (.bin (count * sizeofT : Nat))⟩ := by
    rw [freeExtent, Block.whole, sameRoom]
  rw [sameExtent] at perm
  exact {
    chained := inv.chained.pop found
    regionsApart := inv.regionsApart
    region := inv.region
    apart := (Extent.pairwise_perm perm).mp inv.apart
    inside := fun piece member => inv.inside piece (perm.mem_iff.mpr member)
    liveOk := by
      intro other member
      rcases List.mem_cons.mp member with isNew | member
      · subst isNew
        exact .inr {
          nonzero := inv.chained.start_ne_zero isFree
          word := word
          int := Nat.lt_of_le_of_lt small (by decide)
          source := congrArg some (route_pool small).symm
          pooled := fun _ => sameBin ▸ ok.pooled
          fromHeap := fun large => absurd small (Nat.not_le_of_lt large) }
      · exact (inv.liveOk other member).imp id fun ok => ok.congr fun _ => id
    freeOk := fun other member =>
      inv.freeOk other ((dropFirst_perm found).mem_iff.mpr (List.mem_cons_of_mem _ member))
    counts := by
      intro size
      have before := inv.counts size
      rw [(dropFirst_perm found).countP_eq, List.countP_cons] at before
      rw [List.countP_cons, ← before, sameBin]
      by_cases same : count * sizeofT = size
      · simp only [same, decide_true, if_true]
        omega
      · have other : ¬ ((count * sizeofT : Nat) : Int) = size := by omega
        simp only [same, decide_false, Option.some.injEq, Source.bin.injEq, other]
        omega }

end Allocate

end MallocSurvey.Winnie2
