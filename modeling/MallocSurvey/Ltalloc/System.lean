import MallocSurvey.Library.Transition
import MallocSurvey.Ltalloc.Cache
import MallocSurvey.Ltalloc.Registry
import MallocSurvey.Ltalloc.Squeeze
import Mathlib.Data.Fintype.Basic
import Mathlib.Data.Multiset.Basic

/-! # The allocator as a system of threads

The events are the locked sections of `ltmalloc`, `ltfree`, `release_thread_cache`
and `ltsqueeze`, with the thread-local work next to them, and the calls to the
system. -/

namespace MallocSurvey.Ltalloc

open Library

/-- One size class. `live` and `chunks` are not stored by the allocator: the blocks
that its callers hold, and the chunks whose blocks it has or has handed out. -/
structure ClassState (threads : Nat) where
  caches : Fin threads → ThreadCache
  central : CentralCache
  live : Multiset Nat
  chunks : List Nat

def ClassState.initial (threads : Nat) : ClassState threads where
  caches := fun _ => .initial
  central := .initial
  live := 0
  chunks := []

/-- The locals of `ltsqueeze` after its first locked section. -/
structure Detached where
  batches : List (List Nat)
  freeList : List Nat
  freeListSize : Nat
  minChunkAddr : Nat
  slots : Nat
deriving DecidableEq

namespace Detached

def blocks (lists : Detached) : List Nat := lists.batches.flatten ++ lists.freeList

/-- Finding the chunks that are free; without `counted` there is no buffer. -/
def count (sizeClass : Nat) (headers : Nat → Nat) (lists : Detached) (counted : Bool) :
    Option ChunkCount :=
  let uncounted : ChunkCount := ⟨fun _ => 0, [], headers⟩
  if counted then
    countBlocks sizeClass lists.minChunkAddr lists.slots lists.blocks uncounted
  else some uncounted

/-- The lists and cursors to give back. -/
def unlink (sizeClass : Nat) (lists : Detached) (count : ChunkCount) (heap : Heap) :
    Option Locals :=
  let fuel := lists.blocks.length + 1
  if count.freeChunks ≠ [] then
    unlinkBlocks (fun block =>
      count.inChunkFreeBlocks (chunkIndex lists.minChunkAddr block) ==
        numBlocksInChunk sizeClass) (batchSize sizeClass + 1) fuel heap
  else walkToEnds fuel heap lists.freeListSize

/-- From the first locked section to the end of the second one. -/
def giveBack (sizeClass : Nat) (headers : Nat → Nat) (lists : Detached)
    (cc : CentralCache) (counted : Bool) : Option (ChunkCount × CentralCache) := do
  let count ← lists.count sizeClass headers counted
  let locals ← lists.unlink sizeClass count
    (layLists lists.batches lists.freeList cc.firstBatch cc.freeList)
  let (firstBatch, freeList) ← readCentral
    (lists.blocks.length + cc.firstBatch.flatten.length + cc.freeList.length + 1)
    (giveListsBack locals)
  return (count, { cc with
    firstBatch
    freeList
    freeListSize := (cc.freeListSize + locals.freeListSize) % 2 ^ 32 })

end Detached

/-- What a thread is about to do. -/
inductive Status
  | idle
  | allocatingChunk (sizeClass : Nat)
  | insertingChunk (sizeClass chunk : Nat)
  | allocatingLarge (size : Nat)
  | registering (block size : Nat)
  | allocatingPage (block size : Nat)
  | registeringWithPage (block size page : Nat)
  | unmappingLarge (block size : Nat)
  | exiting (next : Nat)
  | exited
  | squeezing (padsz sizeClass : Nat)
  | detached (padsz sizeClass : Nat) (lists : Detached)
  | padding (padsz sizeClass : Nat) (freeChunks : List Nat)
  | unmapping (padsz sizeClass : Nat) (freeChunks : List Nat)
deriving DecidableEq

/-- `large` and `pages` are the large blocks in use and the pages of trie nodes;
`mapped` is what the system has mapped for the allocator. -/
structure State (threads : Nat) where
  classes : Nat → ClassState threads
  status : Fin threads → Status
  result : Fin threads → Nat
  headers : Nat → Nat
  lastWord : Nat → Nat
  padChunks : List Nat
  padSize : Nat
  registry : Registry
  large : Multiset (Nat × Nat)
  pages : List Nat
  mapped : Multiset (Nat × Nat)

inductive Event (threads : Nat)
  | malloc (thread : Fin threads) (size : Nat)
  /-- `region` is what the system maps when the pad is empty. -/
  | allocateChunk (thread : Fin threads) (region : Nat)
  | chunkFails (thread : Fin threads)
  | insertChunk (thread : Fin threads)
  | allocateLarge (thread : Fin threads) (region : Nat)
  | largeFails (thread : Fin threads)
  | register (thread : Fin threads)
  | allocatePage (thread : Fin threads) (region : Nat)
  | pageFails (thread : Fin threads)
  | registerWithPage (thread : Fin threads)
  | free (thread : Fin threads) (block : Nat)
  | unmapLarge (thread : Fin threads)
  | exit (thread : Fin threads)
  | releaseNext (thread : Fin threads)
  | squeeze (thread : Fin threads) (padsz : Nat)
  | detachLists (thread : Fin threads)
  /-- Without `counted` the buffer for the counts could not be mapped. -/
  | giveBack (thread : Fin threads) (counted : Bool)
  | putOff (thread : Fin threads)
  | unmapChunk (thread : Fin threads)

namespace State

variable {threads : Nat} (state : State threads) (thread : Fin threads)

def setStatus (status : Status) : State threads :=
  { state with status := Function.update state.status thread status }

def setClass (sizeClass : Nat) (classState : ClassState threads) : State threads :=
  { state with classes := Function.update state.classes sizeClass classState }

/-- The call returns. -/
def finish (pointer : Nat) : State threads :=
  { state.setStatus thread .idle with
    result := Function.update state.result thread pointer }

/-! ## Allocation -/

/-- A block or the need for a chunk, after the first locked section. -/
def fetched (sizeClass : Nat) : Fetched → State threads
  | .block fb tc cc =>
      let cs := state.classes sizeClass
      (state.setClass sizeClass { cs with
        caches := Function.update cs.caches thread tc
        central := cc
        live := fb ::ₘ cs.live }).finish thread fb
  | .needChunk tc =>
      let cs := state.classes sizeClass
      (state.setClass sizeClass { cs with
        caches := Function.update cs.caches thread tc }).setStatus thread
          (.allocatingChunk sizeClass)

/-- `ltmalloc` on a size that a cache or a chunk serves. -/
def mallocBlock (sizeClass : Nat) : Option (State threads) :=
  let cs := state.classes sizeClass
  (ltmalloc sizeClass (cs.caches thread) cs.central state.lastWord).map
    (state.fetched thread sizeClass)

/-- `ltmalloc`. -/
def malloc (size : Nat) : Option (State threads) :=
  let sizeClass := getSizeClass size
  if ((state.classes sizeClass).caches thread).freeList ≠ [] ∨
      0 < size ∧ size ≤ maxBlockSize then
    state.mallocBlock thread sizeClass
  else if size = 0 then state.mallocBlock thread (getSizeClass 1)
  else some (state.setStatus thread
    (.allocatingLarge ((size + (chunkSize - 1)) % 2 ^ 64 / chunkSize * chunkSize)))

/-- The chunk comes from the pad or from the system; its last word is null. -/
def allocateChunk (region : Nat) : Option (State threads) :=
  match state.status thread, state.padChunks with
  | .allocatingChunk sizeClass, chunk :: rest =>
      some ({ state with
        padChunks := rest
        padSize := (state.padSize + (2 ^ 64 - chunkSize)) % 2 ^ 64
        lastWord := Function.update state.lastWord (chunk + chunkSize) 0 }.setStatus
          thread (.insertingChunk sizeClass chunk))
  | .allocatingChunk sizeClass, [] =>
      some ({ state with
        mapped := (region, chunkSize) ::ₘ state.mapped
        lastWord := Function.update state.lastWord (region + chunkSize) 0 }.setStatus
          thread (.insertingChunk sizeClass region))
  | _, _ => none

/-- Null or `bad_alloc`. -/
def fails : Option (State threads) := some (state.finish thread 0)

/-- The last locked section of `fetch_from_central_cache`. -/
def insertChunk : Option (State threads) :=
  match state.status thread with
  | .insertingChunk sizeClass chunk => do
      let cs := state.classes sizeClass
      let (outcome, lastWord) ← Ltalloc.insertChunk sizeClass chunk (cs.caches thread)
        cs.central state.lastWord
      return (({ state with
        headers := Function.update state.headers chunk sizeClass
        lastWord }.setClass sizeClass
          { cs with chunks := chunk :: cs.chunks }).fetched thread sizeClass outcome)
  | _ => none

def allocateLarge (region : Nat) : Option (State threads) :=
  match state.status thread with
  | .allocatingLarge size =>
      some ({ state with mapped := (region, size) ::ₘ state.mapped }.setStatus thread
        (.registering region size))
  | _ => none

/-- A large block is returned to the caller. -/
def registered (block size : Nat) (registry : Registry) : State threads :=
  { state with registry, large := (block, size) ::ₘ state.large }.finish thread block

variable (pageSize : Nat)

def register : Option (State threads) :=
  match state.status thread with
  | .registering block size => do
      match ← state.registry.register pageSize (.ofNat 64 block) (.ofNat 64 size) with
      | none => return state.setStatus thread (.allocatingPage block size)
      | some registry => return state.registered thread block size registry
  | _ => none

def allocatePage (region : Nat) : Option (State threads) :=
  match state.status thread with
  | .allocatingPage block size =>
      some ({ state with mapped := (region, pageSize) ::ₘ state.mapped }.setStatus thread
        (.registeringWithPage block size region))
  | _ => none

def registerWithPage : Option (State threads) :=
  match state.status thread with
  | .registeringWithPage block size page => do
      let registry ← state.registry.registerWithPage pageSize (.ofNat 64 block)
        (.ofNat 64 size) page
      return ({ state with pages := page :: state.pages }.registered thread block size
        registry)
  | _ => none

/-! ## Freeing and exit -/

/-- `ltfree`. -/
def free (block : Nat) : Option (State threads) :=
  if block % chunkSize ≠ 0 then do
    let sizeClass := state.headers (block / chunkSize * chunkSize)
    let cs := state.classes sizeClass
    let (tc, cc) ← ltfree sizeClass block (cs.caches thread) cs.central
    return state.setClass sizeClass { cs with
      caches := Function.update cs.caches thread tc
      central := cc
      live := cs.live.erase block }
  else if block = 0 then some state
  else do
    let (registry, size) ← state.registry.unregister (.ofNat 64 block)
    return { state with
      registry
      large := state.large.erase (block, size.toNat) }.setStatus thread
        (.unmappingLarge block size.toNat)

def unmapLarge : Option (State threads) :=
  match state.status thread with
  | .unmappingLarge block size =>
      some ({ state with mapped := state.mapped.erase (block, size) }.setStatus thread
        .idle)
  | _ => none

/-- The next class from `next` on in which the thread has cached blocks. -/
def nextCached (next : Nat) : Option Nat :=
  (List.range' next (numberOfSizeClasses - next)).find? fun sizeClass =>
    let tc := (state.classes sizeClass).caches thread
    !(tc.freeList.isEmpty && tc.tempList.isEmpty)

/-- The next iteration of `release_thread_cache` that takes a lock; the storage of the
cache goes with the thread. -/
def releaseNext : Option (State threads) :=
  match state.status thread with
  | .exiting next =>
      match state.nextCached thread next with
      | none => some (state.setStatus thread .exited)
      | some sizeClass => do
          let cs := state.classes sizeClass
          let cc ← releaseThreadCache sizeClass (cs.caches thread) cs.central
          return (state.setClass sizeClass { cs with
            caches := Function.update cs.caches thread .initial
            central := cc }).setStatus thread (.exiting (sizeClass + 1))
  | _ => none

/-! ## `ltsqueeze` -/

/-- On to the class after `sizeClass`. -/
def nextSqueezed (padsz sizeClass : Nat) : State threads :=
  state.setStatus thread (if sizeClass + 1 < numberOfSizeClasses then
    .squeezing padsz (sizeClass + 1) else .idle)

def detachLists : Option (State threads) :=
  match state.status thread with
  | .squeezing padsz sizeClass =>
      let cs := state.classes sizeClass
      let cc := cs.central
      if cc.maxChunkAddr - cc.minChunkAddr ≤ chunkSize then
        some (state.nextSqueezed thread padsz sizeClass)
      else
        some ((state.setClass sizeClass { cs with
          central := { cc with firstBatch := [], freeList := [], freeListSize := 0 }
          }).setStatus thread (.detached padsz sizeClass {
            batches := cc.firstBatch
            freeList := cc.freeList
            freeListSize := cc.freeListSize
            minChunkAddr := cc.minChunkAddr
            slots := (cc.maxChunkAddr - cc.minChunkAddr) / chunkSize + 1 }))
  | _ => none

/-- The unlocked part, on lists that no other thread refers to, and the second locked
section. -/
def giveBack (counted : Bool) : Option (State threads) :=
  match state.status thread with
  | .detached padsz sizeClass lists => do
      let cs := state.classes sizeClass
      let (count, cc) ← lists.giveBack sizeClass state.headers cs.central counted
      let after := { state with headers := count.headers }.setClass sizeClass { cs with
        central := cc
        chunks := cs.chunks.filter (· ∉ count.freeChunks) }
      return if count.freeChunks ≠ [] then
        after.setStatus thread (.padding padsz sizeClass count.freeChunks)
        else after.nextSqueezed thread padsz sizeClass
  | _ => none

/-- The chunks that go to the pad, the others and the new size of the pad. -/
def takePad (padsz : Nat) : Nat → List Nat → List Nat × List Nat × Nat
  | padSize, [] => ([], [], padSize)
  | padSize, chunk :: rest =>
      let padSize := (padSize + chunkSize) % 2 ^ 64
      if padSize < padsz ∧ rest ≠ [] then
        let (taken, others, size) := takePad padsz padSize rest
        (chunk :: taken, others, size)
      else ([chunk], rest, padSize)

/-- The locked section of the pad. -/
def putOff : Option (State threads) :=
  match state.status thread with
  | .padding padsz sizeClass freeChunks =>
      if padsz ≠ 0 ∧ state.padSize < padsz then
        let (taken, others, padSize) := takePad padsz state.padSize freeChunks
        some ({ state with padChunks := taken ++ state.padChunks, padSize }.setStatus
          thread (.unmapping padsz sizeClass others))
      else some (state.setStatus thread (.unmapping padsz sizeClass freeChunks))
  | _ => none

/-- Returning one chunk to the system. -/
def unmapChunk : Option (State threads) :=
  match state.status thread with
  | .unmapping padsz sizeClass [] => some (state.nextSqueezed thread padsz sizeClass)
  | .unmapping padsz sizeClass (chunk :: rest) =>
      some ({ state with mapped := state.mapped.erase (chunk, chunkSize) }.setStatus thread
        (.unmapping padsz sizeClass rest))
  | _ => none

end State

/-! ## The machine -/

/-- What the system may return for a mapping. -/
structure IsFresh (alignment region size : Nat) (mapped : Multiset (Nat × Nat)) : Prop where
  aligned : region % alignment = 0
  nonzero : region ≠ 0
  inRange : region + size < 2 ^ 64
  disjoint : ∀ other ∈ mapped, region + size ≤ other.1 ∨ other.1 + other.2 ≤ region

variable {threads : Nat}

/-- The thread is where the event says; regions are as the system returns them; only
blocks in use are freed. -/
def Enabled (pageSize : Nat) (state : State threads) : Event threads → Prop
  | .malloc thread size => state.status thread = .idle ∧ size < 2 ^ 64
  | .allocateChunk thread region =>
      (∃ sizeClass, state.status thread = .allocatingChunk sizeClass) ∧
        (state.padChunks = [] → IsFresh chunkSize region chunkSize state.mapped)
  | .chunkFails thread =>
      (∃ sizeClass, state.status thread = .allocatingChunk sizeClass) ∧
        state.padChunks = []
  | .insertChunk thread =>
      ∃ sizeClass chunk, state.status thread = .insertingChunk sizeClass chunk
  | .allocateLarge thread region =>
      ∃ size, state.status thread = .allocatingLarge size ∧ 0 < size ∧
        IsFresh chunkSize region size state.mapped
  | .largeFails thread => ∃ size, state.status thread = .allocatingLarge size
  | .register thread => ∃ block size, state.status thread = .registering block size
  | .allocatePage thread region =>
      (∃ block size, state.status thread = .allocatingPage block size) ∧
        IsFresh pageSize region pageSize state.mapped
  | .pageFails thread => ∃ block size, state.status thread = .allocatingPage block size
  | .registerWithPage thread =>
      ∃ block size page, state.status thread = .registeringWithPage block size page
  | .free thread block =>
      state.status thread = .idle ∧
        (block = 0 ∨ (∃ sizeClass, block ∈ (state.classes sizeClass).live) ∨
          ∃ size, (block, size) ∈ state.large)
  | .unmapLarge thread =>
      ∃ block size, state.status thread = .unmappingLarge block size
  | .exit thread => state.status thread = .idle
  | .releaseNext thread => ∃ next, state.status thread = .exiting next
  | .squeeze thread _ => state.status thread = .idle
  | .detachLists thread =>
      ∃ padsz sizeClass, state.status thread = .squeezing padsz sizeClass
  | .giveBack thread counted =>
      ∃ padsz sizeClass lists, state.status thread = .detached padsz sizeClass lists ∧
        (counted = false → 32 * 1024 < lists.slots * 2)
  | .putOff thread =>
      ∃ padsz sizeClass freeChunks,
        state.status thread = .padding padsz sizeClass freeChunks
  | .unmapChunk thread =>
      ∃ padsz sizeClass freeChunks,
        state.status thread = .unmapping padsz sizeClass freeChunks

def step (pageSize : Nat) (state : State threads) : Event threads → Option (State threads)
  | .malloc thread size => state.malloc thread size
  | .allocateChunk thread region => state.allocateChunk thread region
  | .chunkFails thread => state.fails thread
  | .insertChunk thread => state.insertChunk thread
  | .allocateLarge thread region => state.allocateLarge thread region
  | .largeFails thread => state.fails thread
  | .register thread => state.register thread pageSize
  | .allocatePage thread region => state.allocatePage thread pageSize region
  | .pageFails thread => state.fails thread
  | .registerWithPage thread => state.registerWithPage thread pageSize
  | .free thread block => state.free thread block
  | .unmapLarge thread => state.unmapLarge thread
  | .exit thread => some (state.setStatus thread (.exiting 0))
  | .releaseNext thread => state.releaseNext thread
  | .squeeze thread padsz =>
      some (state.setStatus thread (.squeezing padsz (getSizeClass 16)))
  | .detachLists thread => state.detachLists thread
  | .giveBack thread counted => state.giveBack thread counted
  | .putOff thread => state.putOff thread
  | .unmapChunk thread => state.unmapChunk thread

def State.initial (threads : Nat) (headers : Nat → Nat) (lastWord : Nat → Nat)
    (nodes : Word → Option PTrieNode) : State threads where
  classes := fun _ => .initial threads
  status := fun _ => .idle
  result := fun _ => 0
  headers
  lastWord
  padChunks := []
  padSize := 0
  registry := .initial nodes
  large := 0
  pages := []
  mapped := 0

/-- `threads` threads from the start of the program on. -/
def system (threads pageSize : Nat) : Machine (State threads) (Event threads) where
  Init := fun state => ∃ headers lastWord nodes,
    state = .initial threads headers lastWord nodes
  Enabled := Enabled pageSize
  step := step pageSize

end MallocSurvey.Ltalloc

/-! # `sys_aligned_alloc`

Why the system is taken to map a region at a multiple of the chunk size: a region that is
not is returned, and a larger one is mapped and trimmed. -/

namespace MallocSurvey.Ltalloc

/-- What is returned, and what `VMFREE` is called on, given what the two calls of `VMALLOC`
return; the second is not made if the first is aligned. -/
def sysAlignedAlloc (pageSize alignment size first second : Nat) : Nat × List (Nat × Nat) :=
  if first % alignment ≠ 0 then
    if second ≠ 0 then
      let ap := (second + (alignment - 1)) / alignment * alignment
      let before := ap - second
      let after := alignment - pageSize - before
      (ap, (first, size) :: (if before ≠ 0 then [(second, before)] else []) ++
        if after ≠ 0 then [(ap + size, after)] else [])
    else (second, [(first, size)])
  else (first, [])

section

variable {pageSize alignment size first second : Nat} {mapped : Multiset (Nat × Nat)}
  (divides : pageSize ∣ alignment) (nonzero : 0 < alignment)

include divides nonzero

/-- The trimmed parts are those of the second region before and behind the result. -/
theorem trimmed (isPage : second % pageSize = 0) :
    second ≤ (second + (alignment - 1)) / alignment * alignment ∧
      (second + (alignment - 1)) / alignment * alignment - second ≤ alignment - pageSize := by
  obtain ⟨pages, isAlignment⟩ := divides
  obtain ⟨index, isSecond⟩ := Nat.dvd_of_mod_eq_zero isPage
  have atLeast := Nat.div_add_mod (second + (alignment - 1)) alignment
  have remainder := Nat.mod_lt (second + (alignment - 1)) nonzero
  rw [Nat.mul_comm] at atLeast
  refine ⟨by omega, ?_⟩
  -- the result and the region both start at a page
  have isResult : (second + (alignment - 1)) / alignment * alignment =
      pageSize * ((second + (alignment - 1)) / alignment * pages) := by
    rw [Nat.mul_left_comm, ← isAlignment]
  generalize (second + (alignment - 1)) / alignment * alignment = result at *
  generalize (second + (alignment - 1)) / alignment * pages = resultIndex at *
  have below : pageSize * resultIndex < pageSize * (index + pages) := by
    rw [Nat.mul_add, ← isAlignment, ← isResult, ← isSecond]
    omega
  have step := Nat.mul_le_mul_left pageSize
    (Nat.succ_le_of_lt (Nat.lt_of_mul_lt_mul_left below))
  rw [Nat.mul_succ, Nat.mul_add, ← isAlignment, ← isResult, ← isSecond] at step
  omega

end

end MallocSurvey.Ltalloc
