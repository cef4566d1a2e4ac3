import MallocSurvey.Library.Slab
import MallocSurvey.Ltalloc.SizeClass

/-! # Thread caches and central caches

The functions of `ltalloc.cc` that move blocks between a thread cache and the
central cache of its size class, each the body of one locked section. A linked
list of blocks is the list of their addresses. A failed assertion and a null
dereference are `none`. -/

namespace MallocSurvey.Ltalloc

open Library

structure ThreadCache where
  freeList : List Nat
  tempList : List Nat
  counter : Int

/-- A zero-initialised thread cache. -/
def ThreadCache.initial : ThreadCache := ⟨[], [], 0⟩

/-- `batches[numBatches - 1]` comes first. -/
structure ChunkSm where
  chunk : Nat
  batches : List (List Nat)

/-- `firstBatch` is used by the classes that are not small. For small ones
`chunksFrom` starts with `chunkWithFreeBatches` and follows `next`, and
`chunksBefore` follows its `prev`. -/
structure CentralCache where
  freeBlocksInLastChunk : Nat
  lastChunk : Nat
  firstBatch : List (List Nat)
  chunksBefore : List ChunkSm
  chunksFrom : List ChunkSm
  freeList : List Nat
  freeListSize : Nat
  minChunkAddr : Nat
  maxChunkAddr : Nat

def CentralCache.initial : CentralCache := ⟨0, 0, [], [], [], [], 0, 0, 0⟩

/-- The outcome of the first locked section of `fetch_from_central_cache`. -/
inductive Fetched
  | block (fb : Nat) (tc : ThreadCache) (cc : CentralCache)
  /-- The lock is released to allocate a new chunk. -/
  | needChunk (tc : ThreadCache)

/-- `tc->freeList = fb->next; return fb;` -/
def handOut (fb : List Nat) (tc : ThreadCache) (cc : CentralCache) : Option Fetched :=
  match fb with
  | [] => none
  | first :: rest => some (.block first { tc with freeList := rest } cc)

/-- Taking a batch; `some none` is `no_free_batch`. -/
def takeBatch (sizeClass : Nat) (cc : CentralCache) :
    Option (Option (List Nat × CentralCache)) :=
  if chunkIsSmall sizeClass then
    match cc.chunksFrom with
    | [] => some none
    | cs :: after =>
        match cs.batches, cc.chunksBefore with
        | fb :: rest, _ =>
            some (some (fb, { cc with
              chunksFrom := { cs with batches := rest } :: after }))
        | [], [] => some none
        | [], prev :: before =>
            if prev.batches.length = numOfBatchesInChunkSm then
              match prev.batches with
              | [] => none
              | fb :: rest =>
                  some (some (fb, { cc with
                    chunksBefore := before
                    chunksFrom := { prev with batches := rest } :: cs :: after }))
            else none
  else
    match cc.firstBatch with
    | [] => some none
    | fb :: rest => some (some (fb, { cc with firstBatch := rest }))

/-- `no_free_batch` with a nonempty `cc->freeList`. -/
def takeFreeList (sizeClass : Nat) (tc : ThreadCache) (cc : CentralCache) :
    Option Fetched :=
  let full := batchSize sizeClass + 1
  if cc.freeListSize ≠ 0 then
    if cc.freeListSize ≤ full + 1 then
      handOut cc.freeList { tc with counter := full - cc.freeListSize + 1 }
        { cc with freeListSize := 0, freeList := [] }
    else if full ≤ cc.freeList.length then
      handOut (cc.freeList.take full) tc { cc with
        freeListSize := cc.freeListSize - full
        freeList := cc.freeList.drop full }
    else none
  else none

/-- `no_free_batch` with uncarved blocks in `cc->lastChunk`. -/
def carveLastChunk (sizeClass : Nat) (tc : ThreadCache) (cc : CentralCache)
    (lastWord : Nat → Nat) : Option Fetched :=
  let full := batchSize sizeClass + 1
  let blockSize := classToSize sizeClass
  let firstFree := cc.lastChunk
  if firstFree ≠ 0 ∧ cc.freeBlocksInLastChunk =
      (chunkSize - firstFree % chunkSize) / blockSize then
    let counter : Int := if cc.freeBlocksInLastChunk < full then
      full - cc.freeBlocksInLastChunk + 1 else tc.counter
    let count := if cc.freeBlocksInLastChunk < full then
      cc.freeBlocksInLastChunk else full
    let lastChunk := firstFree + blockSize * count
    let carved := run firstFree count blockSize
    if cc.freeBlocksInLastChunk - count = 0 then
      if lastChunk % chunkSize = 0 then
        let hooked := lastWord lastChunk
        handOut carved { tc with counter } { cc with
          freeBlocksInLastChunk := if hooked ≠ 0 then
            (chunkSize - hooked % chunkSize) / blockSize else 0
          lastChunk := hooked }
      else none
    else
      handOut carved { tc with counter } { cc with
        freeBlocksInLastChunk := cc.freeBlocksInLastChunk - count, lastChunk }
  else none

/-- `no_free_batch`. -/
def noFreeBatch (sizeClass : Nat) (tc : ThreadCache) (cc : CentralCache)
    (lastWord : Nat → Nat) : Option Fetched :=
  if cc.freeList ≠ [] then takeFreeList sizeClass tc cc
  else if cc.freeBlocksInLastChunk ≠ 0 then carveLastChunk sizeClass tc cc lastWord
  else some (.needChunk tc)

/-- `fetch_from_central_cache` up to the allocation of a new chunk. -/
def fetchFromCentralCache (sizeClass : Nat) (tc : ThreadCache) (cc : CentralCache)
    (lastWord : Nat → Nat) : Option Fetched :=
  if tc.tempList ≠ [] then
    if tc.counter = batchSize sizeClass + 1 then
      handOut tc.tempList { tc with counter := 1, tempList := [] } cc
    else none
  else if tc.counter = 0 ∨ tc.counter = batchSize sizeClass + 1 then
    let tc := { tc with counter := 1 }
    match takeBatch sizeClass cc with
    | none => none
    | some none => noFreeBatch sizeClass tc cc lastWord
    | some (some (fb, cc)) => handOut fb tc cc
  else none

/-- `ltmalloc` on a size that is served from chunks. -/
def ltmalloc (sizeClass : Nat) (tc : ThreadCache) (cc : CentralCache)
    (lastWord : Nat → Nat) : Option Fetched :=
  match tc.freeList with
  | fb :: rest =>
      some (.block fb { tc with freeList := rest, counter := tc.counter + 1 } cc)
  | [] => fetchFromCentralCache sizeClass tc cc lastWord

/-- The new chunk goes right after `chunkWithFreeBatches`. -/
def insertChunkSm (chunk : Nat) (cc : CentralCache) : CentralCache :=
  match cc.chunksFrom with
  | [] => { cc with chunksFrom := [⟨chunk, []⟩] }
  | cs :: after => { cc with chunksFrom := cs :: ⟨chunk, []⟩ :: after }

/-- Recording the new chunk in its central cache. -/
def linkChunk (sizeClass chunk : Nat) (cc : CentralCache) : CentralCache :=
  let bounded := { cc with
    minChunkAddr := if chunk < cc.minChunkAddr ∨ cc.minChunkAddr = 0 then chunk
      else cc.minChunkAddr
    maxChunkAddr := if chunk > cc.maxChunkAddr then chunk else cc.maxChunkAddr }
  if chunkIsSmall sizeClass then insertChunkSm chunk bounded else bounded

/-- The rest of `fetch_from_central_cache` once `chunk` has been allocated. -/
def insertChunk (sizeClass chunk : Nat) (tc : ThreadCache) (cc : CentralCache)
    (lastWord : Nat → Nat) : Option (Fetched × (Nat → Nat)) :=
  let full := batchSize sizeClass + 1
  let blockSize := classToSize sizeClass
  let numBlocks := numBlocksInChunk sizeClass
  if lastWord (chunk + chunkSize) = 0 then
    let counter : Int := if numBlocks < full then full - numBlocks + 1 else tc.counter
    let count := if numBlocks < full then numBlocks else full
    let first := chunk + chunkSize - numBlocks * blockSize
    let firstFree := first + count * blockSize
    let hooked := if cc.freeBlocksInLastChunk ≠ 0 then
      Function.update lastWord (regionEnd chunkSize firstFree) cc.lastChunk else lastWord
    match handOut (run first count blockSize) { tc with counter } {
        linkChunk sizeClass chunk cc with
        freeBlocksInLastChunk := numBlocks - count, lastChunk := firstFree } with
    | none => none
    | some fetched => some (fetched, hooked)
  else none

/-- `add_batch_to_central_cache`. -/
def addBatchToCentralCache (sizeClass : Nat) (cc : CentralCache) (batch : List Nat) :
    Option CentralCache :=
  if chunkIsSmall sizeClass then
    match cc.chunksFrom with
    | [] => none
    | cs :: after =>
        if cs.batches.length = numOfBatchesInChunkSm then
          match after with
          | [] => none
          | next :: others =>
              if next.batches.length = 0 then
                some { cc with
                  chunksBefore := cs :: cc.chunksBefore
                  chunksFrom := { next with batches := batch :: next.batches } :: others }
              else none
        else
          some { cc with
            chunksFrom := { cs with batches := batch :: cs.batches } :: after }
  else some { cc with firstBatch := batch :: cc.firstBatch }

/-- `if (tc->tempList) add_batch_to_central_cache(cc, sizeClass, tc->tempList);` -/
def flushTempList (sizeClass : Nat) (tc : ThreadCache) (cc : CentralCache) :
    Option CentralCache :=
  if tc.tempList ≠ [] then addBatchToCentralCache sizeClass cc tc.tempList else some cc

/-- `move_to_central_cache`. -/
def moveToCentralCache (sizeClass : Nat) (tc : ThreadCache) (cc : CentralCache) :
    Option (ThreadCache × CentralCache) := do
  let cc ← flushTempList sizeClass tc cc
  return (⟨[], tc.freeList, batchSize sizeClass⟩, cc)

/-- `ltfree` on a block of this class. -/
def ltfree (sizeClass block : Nat) (tc : ThreadCache) (cc : CentralCache) :
    Option (ThreadCache × CentralCache) := do
  let tc := { tc with counter := tc.counter - 1 }
  let (tc, cc) ← if tc.counter < 0 then moveToCentralCache sizeClass tc cc
    else some (tc, cc)
  return ({ tc with freeList := block :: tc.freeList }, cc)

/-- `append tc->freeList to cc->freeList`; the sizes are 32 bits wide. -/
def appendFreeList (sizeClass : Nat) (tc : ThreadCache) (cc : CentralCache) :
    Option CentralCache :=
  let freeListSize : Nat := tc.freeList.length % 2 ^ 32
  let missing : Int := batchSize sizeClass + 1 - tc.counter
  if tc.freeList ≠ [] then
    if missing % 2 ^ 32 = freeListSize then
      some { cc with
        freeList := tc.freeList ++ cc.freeList
        freeListSize := (cc.freeListSize + freeListSize) % 2 ^ 32 }
    else none
  else some cc

/-- One iteration of `release_thread_cache`. -/
def releaseThreadCache (sizeClass : Nat) (tc : ThreadCache) (cc : CentralCache) :
    Option CentralCache :=
  if tc.freeList ≠ [] ∨ tc.tempList ≠ [] then do
    let cc ← flushTempList sizeClass tc cc
    appendFreeList sizeClass tc cc
  else some cc

end MallocSurvey.Ltalloc
