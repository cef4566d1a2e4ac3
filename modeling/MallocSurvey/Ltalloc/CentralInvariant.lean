import Mathlib.Algebra.Order.Group.Multiset
import Mathlib.Tactic.Abel
import MallocSurvey.Ltalloc.Cache

/-! # The invariant of a central cache

What a central cache stores of the chunks of its class, and what every function
of `Cache` does to it. The blocks stored are counted as a multiset. -/

namespace MallocSurvey.Ltalloc

open Library

/-! ## Chunk geometry -/

/-- Blocks from `tail` to the end of its chunk. -/
def blocksFrom (sizeClass tail : Nat) : Nat :=
  (chunkSize - tail % chunkSize) / classToSize sizeClass

def tailBlocks (sizeClass tail : Nat) : List Nat :=
  run tail (blocksFrom sizeClass tail) (classToSize sizeClass)

/-- Where the last `count` blocks of a chunk start. -/
def tailStart (sizeClass chunk count : Nat) : Nat :=
  chunk + chunkSize - count * classToSize sizeClass

/-- The blocks of a chunk. -/
def chunkBlocks (sizeClass chunk : Nat) : List Nat :=
  run (tailStart sizeClass chunk (numBlocksInChunk sizeClass))
    (numBlocksInChunk sizeClass) (classToSize sizeClass)

section Geometry

variable {sizeClass chunk count : Nat}

theorem tailStart_offset (geometry : Geometry sizeClass)
    (inChunk : count ≤ numBlocksInChunk sizeClass) (positive : 0 < count) :
    ∃ offset, tailStart sizeClass chunk count = chunk + offset ∧
      offset + count * classToSize sizeClass = chunkSize ∧ 64 ≤ offset ∧
      offset < chunkSize := by
  have fits := geometry.blocks_lt
  have shorter := Nat.mul_le_mul_right (classToSize sizeClass) inChunk
  have nonempty := Nat.mul_pos positive geometry.blockSize_pos
  refine ⟨chunkSize - count * classToSize sizeClass, ?_, ?_, ?_, ?_⟩
  · rw [tailStart]
    omega
  · omega
  · omega
  · omega

theorem tailStart_mod (geometry : Geometry sizeClass) (aligned : chunk % chunkSize = 0)
    (inChunk : count ≤ numBlocksInChunk sizeClass) (positive : 0 < count) :
    tailStart sizeClass chunk count % chunkSize =
      chunkSize - count * classToSize sizeClass := by
  obtain ⟨offset, equal, sum, _, inside⟩ :=
    tailStart_offset geometry inChunk positive
  rw [equal, Nat.add_mod, aligned, Nat.zero_add, Nat.mod_mod, Nat.mod_eq_of_lt inside]
  omega

theorem blocksFrom_tailStart (geometry : Geometry sizeClass)
    (aligned : chunk % chunkSize = 0) (inChunk : count ≤ numBlocksInChunk sizeClass)
    (positive : 0 < count) :
    blocksFrom sizeClass (tailStart sizeClass chunk count) = count := by
  obtain ⟨_, _, sum, _, _⟩ :=
    @tailStart_offset _ chunk _ geometry inChunk positive
  rw [blocksFrom, tailStart_mod geometry aligned inChunk positive,
    Nat.sub_sub_self (by omega), Nat.mul_div_cancel _ geometry.blockSize_pos]

theorem regionEnd_tailStart (geometry : Geometry sizeClass)
    (aligned : chunk % chunkSize = 0) (inChunk : count ≤ numBlocksInChunk sizeClass)
    (positive : 0 < count) :
    regionEnd chunkSize (tailStart sizeClass chunk count) = chunk + chunkSize := by
  obtain ⟨offset, equal, _, _, inside⟩ :=
    tailStart_offset geometry inChunk positive
  rw [equal, regionEnd_eq aligned inside]

theorem tailStart_advance {carved : Nat} (geometry : Geometry sizeClass)
    (inChunk : count ≤ numBlocksInChunk sizeClass) (positive : 0 < count)
    (fits : carved ≤ count) :
    tailStart sizeClass chunk count + carved * classToSize sizeClass =
      tailStart sizeClass chunk (count - carved) := by
  obtain ⟨_, equal, sum, _, _⟩ :=
    tailStart_offset geometry inChunk positive
  rw [equal, tailStart, Nat.sub_mul]
  have shorter := Nat.mul_le_mul_right (classToSize sizeClass) fits
  omega

theorem tailStart_zero (sizeClass chunk : Nat) :
    tailStart sizeClass chunk 0 = chunk + chunkSize := by
  simp [tailStart]

theorem chunk_of_mem_run {first total block : Nat} (geometry : Geometry sizeClass)
    (aligned : chunk % chunkSize = 0) (inChunk : total ≤ numBlocksInChunk sizeClass)
    (isFirst : first = tailStart sizeClass chunk total)
    (member : block ∈ run first total (classToSize sizeClass)) :
    block / chunkSize * chunkSize = chunk ∧ block % chunkSize ≠ 0 := by
  obtain ⟨index, inRange, equal⟩ := mem_run.mp member
  obtain ⟨offset, isStart, sum, header, _⟩ :=
    tailStart_offset geometry inChunk (by omega)
  have before := Nat.mul_lt_mul_of_pos_right inRange geometry.blockSize_pos
  rw [equal, isFirst, isStart, Nat.add_assoc]
  have inside : offset + index * classToSize sizeClass < chunkSize := by omega
  obtain ⟨number, isChunk⟩ := Nat.dvd_of_mod_eq_zero aligned
  have positive : 0 < chunkSize := by decide
  subst isChunk
  constructor
  · rw [Nat.mul_add_div positive, Nat.div_eq_of_lt inside, Nat.add_zero, Nat.mul_comm]
  · rw [Nat.mul_add_mod, Nat.mod_eq_of_lt inside]
    omega

theorem chunk_of_mem_chunkBlocks {block : Nat} (geometry : Geometry sizeClass)
    (aligned : chunk % chunkSize = 0) (member : block ∈ chunkBlocks sizeClass chunk) :
    block / chunkSize * chunkSize = chunk ∧ block % chunkSize ≠ 0 :=
  chunk_of_mem_run geometry aligned (Nat.le_refl _) rfl member

theorem chunkBlocks_nodup (geometry : Geometry sizeClass) (chunk : Nat) :
    (chunkBlocks sizeClass chunk).Nodup :=
  run_nodup _ _ geometry.blockSize_pos

/-- The first blocks of a tail and the tail after them. -/
theorem tailBlocks_split {carved : Nat} (geometry : Geometry sizeClass)
    (aligned : chunk % chunkSize = 0) (inChunk : count ≤ numBlocksInChunk sizeClass)
    (fits : carved < count) :
    tailBlocks sizeClass (tailStart sizeClass chunk count) =
      run (tailStart sizeClass chunk count) carved (classToSize sizeClass) ++
        tailBlocks sizeClass (tailStart sizeClass chunk (count - carved)) := by
  rw [tailBlocks, tailBlocks,
    blocksFrom_tailStart geometry aligned inChunk (by omega),
    blocksFrom_tailStart geometry aligned (by omega) (by omega),
    ← tailStart_advance geometry inChunk (by omega) fits.le, ← run_add]
  congr 1
  omega

end Geometry

/-! ## The invariant -/

namespace CentralCache

def batches (sizeClass : Nat) (cc : CentralCache) : List (List Nat) :=
  if chunkIsSmall sizeClass then (cc.chunksBefore ++ cc.chunksFrom).flatMap ChunkSm.batches
  else cc.firstBatch

/-- The free blocks of the central cache; `tails` are the uncarved tails. -/
def stock (sizeClass : Nat) (cc : CentralCache) (tails : List Nat) : Multiset Nat :=
  ((cc.batches sizeClass).flatten : Multiset Nat) + (cc.freeList : Multiset Nat) +
    (tails.flatMap (tailBlocks sizeClass) : Multiset Nat)

end CentralCache

def ThreadCache.stock (tc : ThreadCache) : Multiset Nat :=
  (tc.freeList : Multiset Nat) + (tc.tempList : Multiset Nat)

/-- The batches of the smallest blocks are a stack over the chunks. -/
structure SmallStore (before current : List ChunkSm) (chunks : List Nat) : Prop where
  full : ∀ cs ∈ before, cs.batches.length = numOfBatchesInChunkSm
  fits : ∀ cs ∈ current.head?, cs.batches.length ≤ numOfBatchesInChunkSm
  empty : ∀ cs ∈ current.tail, cs.batches = []
  count : before.length + current.length = chunks.length
  null : current = [] → before = []

/-- The uncarved tails of the chunks. -/
structure TailsOf (sizeClass : Nat) (cc : CentralCache) (chunks : List Nat)
    (lastWord : Nat → Nat) (tails : List Nat) : Prop where
  chain : TailChain chunkSize lastWord (tails.headD 0) tails
  last : tails = [] ∧ cc.freeBlocksInLastChunk = 0 ∨
    ∃ rest, tails = cc.lastChunk :: rest ∧
      cc.freeBlocksInLastChunk = blocksFrom sizeClass cc.lastChunk
  position : ∀ tail ∈ tails, ∃ chunk ∈ chunks, ∃ count,
    0 < count ∧ count < numBlocksInChunk sizeClass ∧
      tail = tailStart sizeClass chunk count
  ends : (tails.map (regionEnd chunkSize)).Nodup
  large : tails ≠ [] → batchSize sizeClass + 1 < numBlocksInChunk sizeClass

structure CentralInv (sizeClass : Nat) (cc : CentralCache) (chunks : List Nat)
    (lastWord : Nat → Nat) (tails : List Nat) : Prop where
  batches_full : ∀ batch ∈ cc.batches sizeClass, batch.length = batchSize sizeClass + 1
  store : chunkIsSmall sizeClass = true →
    SmallStore cc.chunksBefore cc.chunksFrom chunks
  freeListSize : cc.freeListSize = cc.freeList.length % 2 ^ 32
  aligned : ∀ chunk ∈ chunks, chunk % chunkSize = 0 ∧ chunk ≠ 0
  bounds : ∀ chunk ∈ chunks, cc.minChunkAddr ≤ chunk ∧ chunk ≤ cc.maxChunkAddr
  minChunkAddr : (chunks ≠ [] → cc.minChunkAddr ≠ 0) ∧ cc.minChunkAddr % chunkSize = 0
  tails : TailsOf sizeClass cc chunks lastWord tails

/-- The counter of a thread cache between two calls. -/
def CounterLaw (sizeClass : Nat) (tc : ThreadCache) : Prop :=
  tc = .initial ∨
    tc.counter = batchSize sizeClass + 1 - tc.freeList.length ∧ 0 ≤ tc.counter ∧
      (tc.tempList = [] ∨ tc.tempList.length = batchSize sizeClass + 1)

/-- The cache of a thread that has left the first locked section of
`fetch_from_central_cache` to allocate a chunk. -/
def ThreadCache.fetching : ThreadCache := ⟨[], [], 1⟩

/-! ## Batches -/

theorem batches_of_small {sizeClass : Nat} (cc : CentralCache)
    (small : chunkIsSmall sizeClass = true) :
    cc.batches sizeClass = (cc.chunksBefore ++ cc.chunksFrom).flatMap ChunkSm.batches := by
  rw [CentralCache.batches, if_pos small]

theorem batches_of_not_small {sizeClass : Nat} (cc : CentralCache)
    (large : chunkIsSmall sizeClass = false) : cc.batches sizeClass = cc.firstBatch := by
  rw [CentralCache.batches, large, if_neg Bool.false_ne_true]

section Functions

variable {sizeClass : Nat} {cc : CentralCache} {chunks : List Nat}
  {lastWord : Nat → Nat} {tails : List Nat}

/-- What taking a batch from the cache amounts to. -/
structure BatchTaken (sizeClass : Nat) (cc : CentralCache) (chunks : List Nat)
    (lastWord : Nat → Nat) (tails : List Nat) (batch : List Nat)
    (after : CentralCache) : Prop where
  inv : CentralInv sizeClass after chunks lastWord tails
  full : batch.length = batchSize sizeClass + 1
  stock : (batch : Multiset Nat) + after.stock sizeClass tails = cc.stock sizeClass tails

/-- Only the batches differ. -/
structure SameButBatches (cc after : CentralCache) : Prop where
  freeBlocksInLastChunk : after.freeBlocksInLastChunk = cc.freeBlocksInLastChunk
  lastChunk : after.lastChunk = cc.lastChunk
  freeList : after.freeList = cc.freeList
  freeListSize : after.freeListSize = cc.freeListSize
  minChunkAddr : after.minChunkAddr = cc.minChunkAddr
  maxChunkAddr : after.maxChunkAddr = cc.maxChunkAddr

theorem TailsOf.congr {after : CentralCache}
    (tailsOf : TailsOf sizeClass cc chunks lastWord tails)
    (freeBlocks : after.freeBlocksInLastChunk = cc.freeBlocksInLastChunk)
    (lastChunk : after.lastChunk = cc.lastChunk) :
    TailsOf sizeClass after chunks lastWord tails where
  chain := tailsOf.chain
  last := by
    rw [freeBlocks, lastChunk]
    exact tailsOf.last
  position := tailsOf.position
  ends := tailsOf.ends
  large := tailsOf.large

theorem CentralInv.of_batches {after : CentralCache}
    (inv : CentralInv sizeClass cc chunks lastWord tails)
    (same : SameButBatches cc after)
    (batchesFull : ∀ batch ∈ after.batches sizeClass,
      batch.length = batchSize sizeClass + 1)
    (store : chunkIsSmall sizeClass = true →
      SmallStore after.chunksBefore after.chunksFrom chunks) :
    CentralInv sizeClass after chunks lastWord tails where
  batches_full := batchesFull
  store := store
  freeListSize := by
    rw [same.freeListSize, same.freeList]
    exact inv.freeListSize
  aligned := inv.aligned
  bounds := by
    rw [same.minChunkAddr, same.maxChunkAddr]
    exact inv.bounds
  minChunkAddr := by
    rw [same.minChunkAddr]
    exact inv.minChunkAddr
  tails := inv.tails.congr same.freeBlocksInLastChunk same.lastChunk

theorem stock_add_batch {after : CentralCache} {batch : List Nat}
    (freeList : after.freeList = cc.freeList)
    (batches : ((after.batches sizeClass).flatten : Multiset Nat) =
      batch + ((cc.batches sizeClass).flatten : Multiset Nat)) :
    after.stock sizeClass tails = (batch : Multiset Nat) + cc.stock sizeClass tails := by
  rw [CentralCache.stock, CentralCache.stock, batches, freeList]
  simp only [add_assoc]

theorem BatchTaken.of_batches {after : CentralCache} {batch : List Nat}
    (inv : CentralInv sizeClass cc chunks lastWord tails)
    (same : SameButBatches cc after)
    (perm : (cc.batches sizeClass).Perm (batch :: after.batches sizeClass))
    (store : chunkIsSmall sizeClass = true →
      SmallStore after.chunksBefore after.chunksFrom chunks) :
    BatchTaken sizeClass cc chunks lastWord tails batch after where
  inv := inv.of_batches same
    (fun other member => inv.batches_full other
      (perm.mem_iff.mpr (List.mem_cons_of_mem _ member))) store
  full := inv.batches_full batch (perm.mem_iff.mpr List.mem_cons_self)
  stock := by
    refine (stock_add_batch same.freeList.symm ?_).symm
    rw [Multiset.coe_add]
    exact Multiset.coe_eq_coe.mpr perm.flatten

theorem takeBatch_spec (inv : CentralInv sizeClass cc chunks lastWord tails) :
    takeBatch sizeClass cc = some none ∨
      ∃ batch after, takeBatch sizeClass cc = some (some (batch, after)) ∧
        BatchTaken sizeClass cc chunks lastWord tails batch after := by
  unfold takeBatch
  cases small : chunkIsSmall sizeClass with
  | false =>
      rw [if_neg Bool.false_ne_true]
      cases batches : cc.firstBatch with
      | nil => exact .inl rfl
      | cons batch rest =>
          refine .inr ⟨batch, _, rfl, .of_batches inv ⟨rfl, rfl, rfl, rfl, rfl, rfl⟩ ?_ ?_⟩
          · rw [batches_of_not_small _ small, batches_of_not_small _ small, batches]
          · intro isSmall
            rw [small] at isSmall
            cases isSmall
  | true =>
      rw [if_pos rfl]
      have store := inv.store small
      cases fromEq : cc.chunksFrom with
      | nil => exact .inl rfl
      | cons cs after =>
          cases csBatches : cs.batches with
          | cons batch rest =>
              refine .inr ⟨batch,
                { cc with chunksFrom := { cs with batches := rest } :: after },
                by simp only [csBatches], .of_batches inv ⟨rfl, rfl, rfl, rfl, rfl, rfl⟩ ?_ fun _ => ?_⟩
              · rw [batches_of_small _ small, batches_of_small _ small, fromEq]
                simp only [List.flatMap_append, List.flatMap_cons, csBatches]
                exact List.perm_middle
              · rw [fromEq] at store
                refine ⟨store.full, ?_, store.empty, store.count, fun null => by cases null⟩
                intro head isHead
                cases isHead
                have fits := store.fits cs rfl
                rw [csBatches, List.length_cons] at fits
                exact Nat.le_of_succ_le fits
          | nil =>
              cases beforeEq : cc.chunksBefore with
              | nil => exact .inl (by simp only [csBatches])
              | cons prev before =>
                  rw [fromEq, beforeEq] at store
                  have prevFull := store.full prev List.mem_cons_self
                  cases prevBatches : prev.batches with
                  | nil =>
                      rw [prevBatches] at prevFull
                      cases prevFull
                  | cons batch rest =>
                      refine .inr ⟨batch, { cc with
                          chunksBefore := before
                          chunksFrom := { prev with batches := rest } :: cs :: after },
                        by simp only [csBatches, if_pos prevFull]; rw [prevBatches],
                        .of_batches inv ⟨rfl, rfl, rfl, rfl, rfl, rfl⟩ ?_ fun _ => ?_⟩
                      · rw [batches_of_small _ small, batches_of_small _ small, fromEq,
                          beforeEq]
                        simp only [List.flatMap_append, List.flatMap_cons, prevBatches,
                          csBatches, List.cons_append]
                        apply List.Perm.cons
                        simp only [← List.append_assoc, List.nil_append]
                        exact (List.perm_append_comm).append_right _
                      · refine ⟨fun other member =>
                          store.full other (List.mem_cons_of_mem _ member), ?_, ?_, ?_,
                          fun null => by cases null⟩
                        · intro head isHead
                          cases isHead
                          rw [prevBatches, List.length_cons] at prevFull
                          simp only
                          omega
                        · intro other member
                          rcases List.mem_cons.mp member with isCs | member
                          · rw [isCs, csBatches]
                          · exact store.empty other member
                        · have count := store.count
                          simp only [List.length_cons] at count ⊢
                          omega

end Functions

end MallocSurvey.Ltalloc
