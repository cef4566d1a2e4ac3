import MallocSurvey.Library.CellList
import MallocSurvey.Ltalloc.SizeClass

/-! # `ltsqueeze` on one size class

The unlocked part of `ltsqueeze` and its `GIVE_LISTS_BACK_TO_CC`, on the cells
that its pointer-to-pointer cursors go through. -/

namespace MallocSurvey.Ltalloc

open Library

/-- The lists of the central cache, those local to `ltsqueeze` and the two links
of a `FreeBlock`. -/
inductive Cell
  | ccFirstBatch
  | ccFreeList
  | firstBatch
  | freeList
  | additionalBatchesList
  | additionalBlocksList
  | next (block : Nat)
  | nextBatch (block : Nat)
deriving DecidableEq

abbrev Heap := Cell → Nat

/-! ## Counting -/

/-- `inChunkFreeBlocks`, the list `firstFreeChunk` and the headers of the chunks. -/
structure ChunkCount where
  inChunkFreeBlocks : Nat → Nat
  freeChunks : List Nat
  headers : Nat → Nat

/-- The entry of `inChunkFreeBlocks` for a block. -/
def chunkIndex (minChunkAddr block : Nat) : Nat := (block - minChunkAddr) / chunkSize

/-- `FREE_BLOCK(block)` with `slots` entries; the chunk goes in front of the list of
free chunks through its first word, over its header. -/
def freeBlock (sizeClass minChunkAddr slots : Nat) (count : ChunkCount) (block : Nat) :
    Option ChunkCount :=
  let index := chunkIndex minChunkAddr block
  let blocks := count.inChunkFreeBlocks index + 1
  let chunk := block / chunkSize * chunkSize
  if minChunkAddr ≤ block ∧ index < slots then
    let counted := { count with
      inChunkFreeBlocks := Function.update count.inChunkFreeBlocks index blocks }
    if blocks = numBlocksInChunk sizeClass then
      if count.headers chunk = sizeClass then
        some { counted with
          freeChunks := chunk :: count.freeChunks
          headers := Function.update count.headers chunk
            (count.freeChunks.headD 0 % 2 ^ 32) }
      else none
    else some counted
  else none

/-- Counting the free blocks of every chunk. -/
def countBlocks (sizeClass minChunkAddr slots : Nat) :
    List Nat → ChunkCount → Option ChunkCount
  | [], count => some count
  | block :: rest, count => do
      countBlocks sizeClass minChunkAddr slots rest
        (← freeBlock sizeClass minChunkAddr slots count block)

/-- The blocks of the batches at `heads`, in the order they are counted in. -/
def walkBatches (heap : Heap) (fuel : Nat) : List Nat → Option (List (List Nat))
  | [] => some []
  | head :: rest => do
      let (blocks, _) ← walk .next heap fuel (.next head)
      let others ← walkBatches heap fuel rest
      return (head :: blocks) :: others

/-! ## Relinking -/

/-- The cursors of the unlinking loops. -/
structure Relink where
  heap : Heap
  abatch : Cell
  ablock : Cell
  additionalBlocksListSize : Nat

namespace Relink

/-- `*cell = pointer`. -/
def write (state : Relink) (cell : Cell) (pointer : Nat) : Relink :=
  { state with heap := Function.update state.heap cell pointer }

/-- A full batch goes to the end of `additionalBatchesList`. -/
def flush (state : Relink) : Relink :=
  let first := state.heap .additionalBlocksList
  let linked := state.write state.abatch first
  let ended := (linked.write (.nextBatch first) 0).write state.ablock 0
  let cleared := ended.write .additionalBlocksList 0
  { cleared with
    abatch := .nextBatch first
    ablock := .additionalBlocksList
    additionalBlocksListSize := 0 }

end Relink

variable (matching : Nat → Bool) (batchSize : Nat)

/-- Re-adding the blocks of a batch; `inRun` inside the `do` loop, where the
block is already linked. -/
def readdBatch : Nat → Bool → Nat → Relink → Option Relink
  | 0, _, _, _ => none
  | fuel + 1, inRun, block, state =>
      if block = 0 then some state
      else if matching block then
        readdBatch fuel false (state.heap (.next block)) state
      else
        let linked := if inRun then state else state.write state.ablock block
        let moved := { linked with
          ablock := .next block
          additionalBlocksListSize := linked.additionalBlocksListSize + 1 }
        let following := linked.heap (.next block)
        if moved.additionalBlocksListSize = batchSize then
          readdBatch fuel false following moved.flush
        else readdBatch fuel true following moved

/-- The loop that unlinks the batches with a block to release. -/
def unlinkBatches : Nat → Cell → Relink → Option (Cell × Relink)
  | 0, _, _ => none
  | fuel + 1, pbatch, state =>
      let head := state.heap pbatch
      if head = 0 then some (pbatch, state)
      else do
        let (rest, _) ← walk .next state.heap (fuel + 1) (.next head)
        if (head :: rest).any matching then
          let nextBatch := state.heap (.nextBatch head)
          let readded ← readdBatch matching batchSize (fuel + 1) false head state
          let ended := readded.write readded.ablock 0
          unlinkBatches fuel pbatch (ended.write pbatch nextBatch)
        else unlinkBatches fuel (.nextBatch head) state

/-- The loop over `freeList`. -/
def readdBlocks : Nat → Nat → Relink → Option Relink
  | 0, _, _ => none
  | fuel + 1, block, state =>
      if block = 0 then some state
      else if matching block then readdBlocks fuel (state.heap (.next block)) state
      else
        let linked := state.write state.ablock block
        let following := linked.heap (.next block)
        let ended := linked.write (.next block) 0
        let moved := { ended with
          ablock := .next block
          additionalBlocksListSize := ended.additionalBlocksListSize + 1 }
        if moved.additionalBlocksListSize = batchSize then
          readdBlocks fuel following moved.flush
        else readdBlocks fuel following moved

/-- What `GIVE_LISTS_BACK_TO_CC` finds in the locals. -/
structure Locals where
  heap : Heap
  pbatch : Cell
  pblock : Cell
  freeListSize : Nat

/-- Unlinking all blocks of releasable chunks. -/
def unlinkBlocks (fuel : Nat) (heap : Heap) : Option Locals := do
  let start : Relink := {
    heap := Function.update (Function.update heap .additionalBatchesList 0)
      .additionalBlocksList 0
    abatch := .additionalBatchesList
    ablock := .additionalBlocksList
    additionalBlocksListSize := 0 }
  let (pbatch, unlinked) ← unlinkBatches matching batchSize fuel .firstBatch start
  let state ← readdBlocks matching batchSize fuel (unlinked.heap .freeList) unlinked
  let joined := state.write state.abatch (state.heap pbatch)
  let added := joined.write pbatch (joined.heap .additionalBatchesList)
  let loose := added.write .freeList (added.heap .additionalBlocksList)
  return {
    heap := loose.heap
    pbatch
    pblock := state.ablock
    freeListSize := state.additionalBlocksListSize }

/-- `GIVE_LISTS_BACK_TO_CC`. -/
def giveListsBack (locals : Locals) : Heap :=
  let write (heap : Heap) (cell source : Cell) := Function.update heap cell (heap source)
  let batched := write locals.heap locals.pbatch .ccFirstBatch
  let firstBatch := write batched .ccFirstBatch .firstBatch
  let hung := write firstBatch locals.pblock .ccFreeList
  write hung .ccFreeList .freeList

/-- The cursors when nothing is released. -/
def walkToEnds (fuel : Nat) (heap : Heap) (freeListSize : Nat) : Option Locals := do
  let (_, pbatch) ← walk .nextBatch heap fuel .firstBatch
  let (_, pblock) ← walk .next heap fuel .freeList
  return { heap, pbatch, pblock, freeListSize }

/-- The cells that hold the detached lists and those of the central cache. -/
def layLists (batches : List (List Nat)) (loose : List Nat) (ccBatches : List (List Nat))
    (ccFree : List Nat) : Heap
  | .ccFirstBatch => (ccBatches.map (·.headD 0)).headD 0
  | .ccFreeList => ccFree.headD 0
  | .firstBatch => (batches.map (·.headD 0)).headD 0
  | .freeList => loose.headD 0
  | .next block => successorIn (batches ++ [loose] ++ (ccBatches ++ [ccFree])) block
  | .nextBatch block =>
      successorIn [batches.map (·.headD 0), ccBatches.map (·.headD 0)] block
  | _ => 0

/-- The lists that a heap holds in the central cache. -/
def readCentral (fuel : Nat) (heap : Heap) : Option (List (List Nat) × List Nat) := do
  let (heads, _) ← walk .nextBatch heap fuel .ccFirstBatch
  let firstBatch ← walkBatches heap fuel heads
  let (freeList, _) ← walk .next heap fuel .ccFreeList
  return (firstBatch, freeList)

end MallocSurvey.Ltalloc
