import MallocSurvey.Library.Extents
import MallocSurvey.Library.Places
import MallocSurvey.Library.Transition

/-! # `fc_malloc/malloc2.cpp`

One thread and the garbage collector. Pointers are addresses and null is 0. The positions in
a page and the counters are numbers: a page ends before 2^32. -/

namespace MallocSurvey.FcMalloc.Malloc2

open Library

/-- `PAGE_SIZE` -/
def pageSize : Nat := 4 * 1024 * 1024

structure BlockHeader where
  /-- how far from the start of the page -/
  pagePos : Nat
  prev : Nat
  next : Nat
  timestamp : Nat
deriving DecidableEq

/-- `sizeof(block_header)` -/
def sizeofHeader : Nat := 16

/-- `LOG2(s)+1` -/
def getBinNum (s : Nat) : Nat := Nat.log2 s + 1

namespace BlockHeader

def calcSize (header : BlockHeader) : Nat := header.next - header.pagePos

def calcBinNum (header : BlockHeader) : Nat := getBinNum header.calcSize

/-- The bytes after the header. -/
def usable (header : BlockHeader) : Nat := header.calcSize - sizeofHeader

end BlockHeader

/-! ## The state -/

/-- The caches of a thread, and the recycle bins. -/
def binCount : Nat := 32

/-- The sizes of the ring buffers. -/
def garbageSlots : Nat := 1024 * 8

def cacheSlots : Nat := 4

def recycleSlots : Nat := 1024 * 256

structure ThreadAllocator where
  /-- how far has gc processed -/
  gcBegin : Nat
  /-- how far can gc read -/
  gcReadEnd : Nat
  gcReadEndBuffer : Nat
  gcReadEndLastWrite : Nat
  cachePos : Nat → Nat
  cacheEnd : Nat → Nat
  nextBlock : Nat
  garbageBin : Nat → Nat
  cache : Nat → Nat → Nat

structure RecycleBin where
  nextWrite : Nat
  writePos : Nat
  readPos : Nat
  freeBin : Nat → Nat

structure System where
  /-- the headers, by their addresses -/
  header : Nat → BlockHeader
  thread : ThreadAllocator
  bins : Nat → RecycleBin
  /-- where the pass of the garbage collector is and where it ends -/
  collecting : Option (Nat × Nat)
  /-- the pages that the system has handed out -/
  pages : List Extent
  /-- the blocks that were freed and not handed out since -/
  freed : List Nat

/-- The header of a block. -/
def System.headerOf (system : System) (c : Nat) : BlockHeader :=
  system.header (c - sizeofHeader)

/-! ## `thread_allocator::free` -/

namespace ThreadAllocator

variable (thread : ThreadAllocator)

def pushCache (bin c : Nat) : ThreadAllocator :=
  { thread with
    cache := Function.update thread.cache bin
      (Function.update (thread.cache bin) (thread.cacheEnd bin % cacheSlots) c)
    cacheEnd := Function.update thread.cacheEnd bin (thread.cacheEnd bin + 1) }

def pushGarbage (c : Nat) : ThreadAllocator :=
  { thread with
    garbageBin :=
      Function.update thread.garbageBin (thread.gcReadEndBuffer % garbageSlots) c
    gcReadEndBuffer := thread.gcReadEndBuffer + 1 }

/-- The garbage is shown to the garbage collector when more than ten blocks are new. -/
def publish : ThreadAllocator :=
  if 10 < thread.gcReadEndBuffer - thread.gcReadEndLastWrite then
    { thread with
      gcReadEnd := thread.gcReadEndBuffer
      gcReadEndLastWrite := thread.gcReadEndBuffer }
  else thread

def free (bin c : Nat) : ThreadAllocator :=
  if thread.cacheEnd bin < thread.cachePos bin + 32 then thread.pushCache bin c
  else (thread.pushGarbage c).publish

/-- The first block in the cache of a bin. -/
def firstCached (bin : Nat) : Nat := thread.cache bin (thread.cachePos bin % cacheSlots)

def popCache (bin : Nat) : ThreadAllocator :=
  { thread with cachePos := Function.update thread.cachePos bin (thread.cachePos bin + 1) }

/-- The search from bin `i` on; `left` bins are before the limit. -/
def findCached : Nat → Nat → Option Nat
  | 0, _ => none
  | left + 1, i =>
      if thread.cachePos i < thread.cacheEnd i then some i else findCached left (i + 1)

end ThreadAllocator

namespace System

variable (system : System)

def free (c : Nat) : System :=
  { system with
    thread := system.thread.free (system.headerOf c).calcBinNum c
    freed := c :: system.freed }

/-! ## `thread_allocator::alloc` -/

/-- `allocate_block_page`, with the answer of the system -/
def allocateBlockPage (answer : Nat) : Option System :=
  if answer = 0 then none
  else some { system with
    header := Function.update system.header answer ⟨0, 0, pageSize, 0⟩
    thread := { system.thread with nextBlock := answer }
    pages := ⟨answer, pageSize⟩ :: system.pages }

/-- The first block of a cache is handed out. -/
def takeCached (bin : Nat) : Nat × System :=
  (system.thread.firstCached bin, { system with
    thread := system.thread.popCache bin
    freed := system.freed.erase (system.thread.firstCached bin) })

/-- The loop that moves claimed blocks to the cache; `left` positions are before its end. -/
def claim (bin : Nat) : Nat → Nat → System → System
  | 0, _, system => system
  | left + 1, pos, system =>
      let b := (system.bins bin).freeBin (pos % recycleSlots)
      if b ≠ 0 then
        claim bin left (pos + 1) { system with
          thread := system.thread.pushCache bin b
          bins := Function.update system.bins bin { system.bins bin with
            freeBin := Function.update (system.bins bin).freeBin (pos % recycleSlots) 0 } }
      else claim bin left (pos + 1) system

/-- The blocks that a recycle bin shows. -/
def available (bin : Nat) : Nat := (system.bins bin).writePos - (system.bins bin).readPos

/-- Eight blocks are claimed from a recycle bin. -/
def fetch (bin : Nat) : System :=
  let pos := (system.bins bin).readPos
  claim bin 8 pos { system with
    bins := Function.update system.bins bin { system.bins bin with readPos := pos + 8 } }

/-- The next block of the page of the thread is cut off. -/
def carve (s : Nat) : Nat × System :=
  let newB := system.thread.nextBlock
  let next := newB + sizeofHeader * (1 + s / sizeofHeader)
  let cut := system.header newB
  let pagePos := cut.pagePos + sizeofHeader + s
  let header := Function.update system.header next ⟨pagePos, cut.pagePos, pageSize, cut.timestamp⟩
  (newB + sizeofHeader, { system with
    header := Function.update header newB { header newB with next := pagePos }
    thread := { system.thread with nextBlock := next } })

/-- The page of the thread has no room for a block. -/
def Exhausted (s : Nat) : Prop :=
  pageSize ≤ (system.header system.thread.nextBlock).pagePos + s + sizeofHeader

instance (s : Nat) : Decidable (system.Exhausted s) := inferInstanceAs (Decidable (_ ≤ _))

/-- The last part of `alloc`. -/
def allocChunk (s answer : Nat) : Option (Nat × System) :=
  if system.Exhausted s then do
    let system :=
      if (system.header system.thread.nextBlock).pagePos ≠ pageSize then
        system.free (system.thread.nextBlock + sizeofHeader)
      else system
    let system ← system.allocateBlockPage answer
    return system.carve s
  else some (system.carve s)

/-- multiples of 64 bytes -/
def roundUp (s : Nat) : Nat := 64 * ((s + 63) / 64)

/-- The bin that `alloc` finds a cached block in. -/
def cachedBin (s : Nat) : Option Nat :=
  system.thread.findCached (min (getBinNum s + 4) binCount - getBinNum s) (getBinNum s)

def alloc (s answer : Nat) : Option (Nat × System) :=
  let s := roundUp s
  if pageSize ≤ s + sizeofHeader then none
  else
    match system.cachedBin s with
    | some i => some (system.takeCached i)
    | none =>
        let bin := getBinNum s
        if binCount ≤ bin then none
        else if 16 < system.available bin then
          let system := system.fetch bin
          if system.thread.cachePos bin < system.thread.cacheEnd bin then
            some (system.takeCached bin)
          else system.allocChunk s answer
        else system.allocChunk s answer

/-! ## `garbage_collector` -/

/-- The first position from `p` on whose slot is empty. The loop has no end when there is none
among as many as the ring has. -/
def seekEmpty (ring : Nat → Nat) : Nat → Nat → Option Nat
  | 0, _ => none
  | fuel + 1, p => if ring (p % recycleSlots) ≠ 0 then seekEmpty ring fuel (p + 1) else some p

def recycle (c : Nat) : Option System := do
  let header := system.headerOf c
  let num := getBinNum header.calcSize
  if header.calcSize = 0 ∨ binCount ≤ num then none
  else
    let bin := system.bins num
    let p ← seekEmpty bin.freeBin recycleSlots bin.nextWrite
    return { system with
      bins := Function.update system.bins num { bin with
        nextWrite := p + 1
        writePos := p
        freeBin := Function.update bin.freeBin (p % recycleSlots) c } }

/-- A step of `run` for the thread: a pass begins, takes a block on, or ends. -/
def collect : Option System :=
  match system.collecting with
  | none => some { system with
      collecting := some (system.thread.gcBegin, system.thread.gcReadEnd) }
  | some (p, e) =>
      if p < e then do
        let system ← system.recycle (system.thread.garbageBin (p % garbageSlots))
        return { system with collecting := some (p + 1, e) }
      else some { system with
        thread := { system.thread with gcBegin := e }
        collecting := none }

end System

/-! ## A program that uses `malloc2` -/

/-- A block that `malloc2` returned for some size. -/
structure Block where
  pointer : Nat
  size : Nat
deriving DecidableEq

structure State where
  system : System
  live : List Block

inductive Event
  /-- with what the system answers if it is asked for a page -/
  | malloc2 (size answer : Nat)
  /-- `free2` of the `index`-th of the live blocks -/
  | free2 (index : Nat)
  /-- a step of the garbage collector -/
  | collect

/-- What the system may answer for a page: null, or memory that is not in use. -/
def Answers (system : System) (answer : Nat) : Prop :=
  answer = 0 ∨ ∀ page ∈ system.pages, Extent.Apart ⟨answer, pageSize⟩ page

instance (system : System) (answer : Nat) : Decidable (Answers system answer) :=
  inferInstanceAs (Decidable (_ ∨ _))

/-- Sizes are positive and fit a page. -/
def Enabled (state : State) : Event → Prop
  | .malloc2 size answer =>
      0 < size ∧ System.roundUp size + sizeofHeader < pageSize ∧ Answers state.system answer
  | .free2 index => index < state.live.length
  | .collect => True

instance (state : State) : (event : Event) → Decidable (Enabled state event)
  | .malloc2 _ _ => inferInstanceAs (Decidable (_ ∧ _))
  | .free2 _ => inferInstanceAs (Decidable (_ < _))
  | .collect => inferInstanceAs (Decidable True)

def step (state : State) : Event → Option State
  | .malloc2 size answer => do
      let (c, system) ← state.system.alloc size answer
      return ⟨system, ⟨c, size⟩ :: state.live⟩
  | .free2 index => do
      let block ← state.live[index]?
      return ⟨state.system.free block.pointer, state.live.eraseIdx index⟩
  | .collect => do
      let system ← state.system.collect
      return { state with system := system }

/-- The thread has made its allocator. Only the recycle bins are cleared. -/
structure Started (system : System) : Prop where
  counters : system.thread.gcBegin = 0 ∧ system.thread.gcReadEnd = 0 ∧
    system.thread.gcReadEndBuffer = 0 ∧ system.thread.gcReadEndLastWrite = 0
  caches : ∀ bin, system.thread.cachePos bin = 0 ∧ system.thread.cacheEnd bin = 0
  bins : ∀ bin, system.bins bin = ⟨0, 0, 0, fun _ => 0⟩
  page : system.thread.nextBlock ≠ 0 ∧ system.pages = [⟨system.thread.nextBlock, pageSize⟩] ∧
    system.header system.thread.nextBlock = ⟨0, 0, pageSize, 0⟩
  idle : system.collecting = none
  freed : system.freed = []

def machine : Machine State Event where
  Init state := Started state.system ∧ state.live = []
  Enabled := Enabled
  step := step

end MallocSurvey.FcMalloc.Malloc2
