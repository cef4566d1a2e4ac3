import MallocSurvey.Library.ByteMemory
import MallocSurvey.Library.Slab
import MallocSurvey.Library.Transition
import Mathlib.Data.Fin.VecNotation

/-! # `MicroAllocator/MicroAllocator.inl`

Pointers are addresses and null is 0. A failed assertion is `none`, and so is the loop
of `init` without blocks, which writes through all of memory. -/

namespace MallocSurvey.MicroAllocator

open Library

def maxAllocationSize : Nat := 1024

abbrev maxAllocators : Nat := 17

/-- DEFAULT_CHUNKS -/
abbrev defaultChunks : Nat := 32

/-- The `from` and `to` of `$fixed_allocator`. -/
def fixedAllocators : Fin maxAllocators → Nat × Nat :=
  ![(0, 8), (9, 16), (17, 24), (25, 32), (33, 48), (49, 64), (65, 80), (81, 96), (97, 128),
    (129, 160), (161, 192), (193, 224), (225, 296), (297, 368), (369, 440), (441, 512),
    (513, 1024)]

/-- The size of the blocks of an allocator. -/
def blockSize (allocator : Fin maxAllocators) : Nat := (fixedAllocators allocator).2

/-- `mFixedAllocators[size]` -/
def fixedAllocator (size : Nat) : Option (Fin maxAllocators) :=
  (List.finRange maxAllocators).find? fun allocator =>
    (fixedAllocators allocator).1 ≤ size ∧ size ≤ (fixedAllocators allocator).2

/-! ## `MemoryChunk` -/

structure MemoryChunk where
  myHeap : Bool
  data : Nat
  dataEnd : Nat
  usedCount : Nat
  freeList : Nat
  chunkSize : Nat
deriving DecidableEq

def MemoryChunk.new : MemoryChunk where
  myHeap := false
  data := 0
  dataEnd := 0
  usedCount := 0
  freeList := 0
  chunkSize := 0

/-- The loop of `init` and the null behind it. -/
def linkBlocks (chunkSize : Nat) : Nat → Nat → Memory → Memory
  | 0, scan, memory => storePointer memory scan 0
  | left + 1, scan, memory =>
      linkBlocks chunkSize left (scan + chunkSize) (storePointer memory scan (scan + chunkSize))

def MemoryChunk.init (chunk : MemoryChunk) (memory : Memory)
    (chunkBase chunkSize maxChunks : Nat) : Option (MemoryChunk × Memory) :=
  if maxChunks = 0 then none
  else
    some ({ chunk with
      chunkSize := chunkSize
      data := chunkBase
      dataEnd := chunkBase + chunkSize * maxChunks
      freeList := chunkBase }, linkBlocks chunkSize (maxChunks - 1) chunkBase memory)

def MemoryChunk.isInside (chunk : MemoryChunk) (p : Nat) : Prop :=
  chunk.data ≤ p ∧ p < chunk.dataEnd

instance (chunk : MemoryChunk) (p : Nat) : Decidable (chunk.isInside p) :=
  inferInstanceAs (Decidable (_ ∧ _))

/-! ## The allocator -/

/-- A `MemoryChunkChunk`: the one in a fixed allocator, or one from the heap. -/
inductive ChunkChunk
  | inside (allocator : Fin maxAllocators)
  | fromHeap (address : Nat)
deriving DecidableEq

/-- `mChunks[index]` of a `MemoryChunkChunk` -/
structure ChunkName where
  chunkChunk : ChunkChunk
  index : Fin defaultChunks
deriving DecidableEq

def primary (allocator : Fin maxAllocators) : ChunkName := ⟨.inside allocator, 0⟩

structure MicroChunk where
  memStart : Nat
  memEnd : Nat
  chunk : ChunkName
deriving DecidableEq

structure MyMicroAllocator where
  memory : Memory
  chunk : ChunkName → MemoryChunk
  /-- `mCurrent` -/
  current : Fin maxAllocators → ChunkName
  /-- `mChunks` of an allocator and what is linked behind it -/
  chunkChunks : Fin maxAllocators → List ChunkChunk
  microChunks : List MicroChunk
  /-- The index that `mLastMicroChunk` points to. -/
  lastMicroChunk : Option Nat

/-- The place of `addMicroChunk` in the list. -/
def insertIndex (memEnd : Nat) (microChunks : List MicroChunk) : Nat :=
  microChunks.findIdx fun other => memEnd < other.memStart

namespace MyMicroAllocator

variable (state : MyMicroAllocator)

def setChunk (name : ChunkName) (chunk : MemoryChunk) : MyMicroAllocator :=
  { state with chunk := Function.update state.chunk name chunk }

def addMicroChunk (memStart memEnd : Nat) (chunk : ChunkName) : MyMicroAllocator :=
  let place := insertIndex memEnd state.microChunks
  { state with
    microChunks := state.microChunks.insertIdx place ⟨memStart, memEnd, chunk⟩
    lastMicroChunk := some place }

def removeMicroChunk (chunk : ChunkName) : MyMicroAllocator :=
  { state with
    microChunks := state.microChunks.eraseP fun microChunk => microChunk.chunk = chunk
    lastMicroChunk := none }

/-- `MemoryChunk::init` of one of the chunks. -/
def initChunk (name : ChunkName) (chunkBase chunkSize maxChunks : Nat) :
    Option MyMicroAllocator := do
  let (chunk, memory) ← (state.chunk name).init state.memory chunkBase chunkSize maxChunks
  return { state.setChunk name chunk with memory := memory }

/-- The part of `MemoryChunk::allocate` that asks the heap. -/
def fetchChunk (name : ChunkName) (chunkSize maxChunks answer : Nat) :
    Option MyMicroAllocator :=
  if (state.chunk name).data = 0 then
    if answer = 0 then none
    else do
      let owned := state.setChunk name { state.chunk name with myHeap := true }
      let filled ← owned.initChunk name answer chunkSize maxChunks
      return filled.addMicroChunk (filled.chunk name).data (filled.chunk name).dataEnd name
  else some state

/-- The part of `MemoryChunk::allocate` that takes a block. -/
def takeBlock (name : ChunkName) : Nat × MyMicroAllocator :=
  let chunk := state.chunk name
  if chunk.freeList = 0 then (0, state)
  else
    (chunk.freeList, state.setChunk name { chunk with
      usedCount := chunk.usedCount + 1
      freeList := loadPointer state.memory chunk.freeList })

/-- `MemoryChunk::allocate`, with what the heap answers if it is asked. -/
def allocateChunk (name : ChunkName) (chunkSize maxChunks answer : Nat) :
    Option (Nat × MyMicroAllocator) := do
  let fetched ← state.fetchChunk name chunkSize maxChunks answer
  return fetched.takeBlock name

/-- `MemoryChunk::deallocate` -/
def deallocateChunk (name : ChunkName) (p : Nat) : Option MyMicroAllocator :=
  let chunk := state.chunk name
  if chunk.usedCount = 0 ∨ ¬ chunk.isInside p then none
  else
    let freed := { chunk with freeList := p, usedCount := chunk.usedCount - 1 }
    let linked := { state.setChunk name freed with
      memory := storePointer state.memory p chunk.freeList }
    if freed.usedCount = 0 ∧ freed.myHeap then
      some ((linked.removeMicroChunk name).setChunk name
        { freed with myHeap := false, data := 0, dataEnd := 0, freeList := 0 })
    else some linked

/-- The loop of `MemoryChunkChunk::allocate` over the chunks from some index on. -/
def scanChunks (chunkSize maxChunks answer : Nat) (chunkChunk : ChunkChunk) :
    List (Fin defaultChunks) → MyMicroAllocator →
      Option (Nat × ChunkName × MyMicroAllocator)
  | [], state => some (0, ⟨chunkChunk, 0⟩, state)
  | index :: rest, state => do
      let (ret, state) ← state.allocateChunk ⟨chunkChunk, index⟩ chunkSize maxChunks answer
      if ret ≠ 0 then return (ret, ⟨chunkChunk, index⟩, state)
      else scanChunks chunkSize maxChunks answer chunkChunk rest state

/-- The loop over the chunk chunks from some one on, and what `current` becomes. -/
def scan (chunkSize maxChunks answer : Nat) :
    List ChunkChunk → ChunkName → MyMicroAllocator →
      Option (Nat × ChunkName × MyMicroAllocator)
  | [], current, state => some (0, current, state)
  | chunkChunk :: rest, current, state => do
      let (ret, found, state) ←
        scanChunks chunkSize maxChunks answer chunkChunk (List.finRange defaultChunks) state
      if ret ≠ 0 then return (ret, found, state)
      else scan chunkSize maxChunks answer rest current state

/-- `new (mcc) MemoryChunkChunk`, linked behind the first one of an allocator. -/
def newChunkChunk (allocator : Fin maxAllocators) (mcc : Nat) : MyMicroAllocator :=
  let chunkChunks := state.chunkChunks allocator
  { state with
    chunk := fun name =>
      if name.chunkChunk = .fromHeap mcc then .new else state.chunk name
    chunkChunks := Function.update state.chunkChunks allocator
      (chunkChunks.take 1 ++ .fromHeap mcc :: chunkChunks.drop 1) }

/-- `MemoryChunkChunk::allocate`. The heap answers `mcc` for a chunk chunk and `answer`
for the blocks of a chunk. -/
def allocateFrom (allocator : Fin maxAllocators) (chunkSize maxChunks mcc answer : Nat) :
    Option (Nat × MyMicroAllocator) := do
  let (ret, current, scanned) ← scan chunkSize maxChunks answer (state.chunkChunks allocator)
    (state.current allocator) state
  if ret ≠ 0 then
    return (ret, { scanned with current := Function.update scanned.current allocator current })
  else if mcc = 0 then none
  else
    let name : ChunkName := ⟨.fromHeap mcc, 0⟩
    let (ret, state) ←
      (scanned.newChunkChunk allocator mcc).allocateChunk name chunkSize maxChunks answer
    return (ret, { state with current := Function.update state.current allocator name })

/-- `FixedMemory::allocate` -/
def allocateFixed (fixedSize : Nat) (allocator : Fin maxAllocators) (mcc answer : Nat) :
    Option (Nat × MyMicroAllocator) := do
  let chunkSize := blockSize allocator
  let maxChunks := fixedSize / chunkSize
  let (ret, state) ←
    state.allocateChunk (state.current allocator) chunkSize maxChunks answer
  if ret = 0 then state.allocateFrom allocator chunkSize maxChunks mcc answer
  else return (ret, state)

/-- `malloc`; `fixedSize` is `mChunkSize`. -/
def malloc (fixedSize size mcc answer : Nat) : Option (Nat × MyMicroAllocator) :=
  if size ≤ maxAllocationSize then do
    let allocator ← fixedAllocator size
    state.allocateFixed fixedSize allocator mcc answer
  else none

/-- `free` -/
def free (p : Nat) (chunk : ChunkName) : Option MyMicroAllocator :=
  state.deallocateChunk chunk p

/-! ## Construction -/

/-- The members before the fixed allocators are initialised. -/
def blank (memory : Memory) : MyMicroAllocator where
  memory := memory
  chunk _ := .new
  current := primary
  chunkChunks allocator := [.inside allocator]
  microChunks := []
  lastMicroChunk := none

/-- The `$fixed_allocator` lines from some one on. -/
def initFixed (fixedSize : Nat) : List (Fin maxAllocators) → Nat → MyMicroAllocator →
    Option MyMicroAllocator
  | [], _, state => some state
  | allocator :: rest, chunkBase, state => do
      let state ← state.initChunk (primary allocator) chunkBase (blockSize allocator)
        (fixedSize / blockSize allocator)
      initFixed fixedSize rest (chunkBase + fixedSize) state

/-- The constructor; the memory of the fixed allocators begins at `chunkBase`. -/
def new (memory : Memory) (fixedSize chunkBase : Nat) : Option MyMicroAllocator :=
  initFixed fixedSize (List.finRange maxAllocators) chunkBase (blank memory)

end MyMicroAllocator

/-! ## A program that uses the allocator -/

structure Block where
  pointer : Nat
  /-- the size asked for -/
  size : Nat
  allocator : Fin maxAllocators
  /-- the chunk that the allocator was at when the block was returned -/
  chunk : ChunkName
deriving DecidableEq

structure State where
  micro : MyMicroAllocator
  live : List Block

inductive Event
  | malloc (size mcc answer : Nat)
  /-- `free` for the `index`-th of the live blocks -/
  | free (index : Nat)
  /-- The program writes to a block. -/
  | write (place : Nat) (value : UInt8)

/-- What the heap may answer: null, or a chunk chunk of its own. -/
def AnswersChunkChunk (state : MyMicroAllocator) (mcc : Nat) : Prop :=
  ∀ allocator, .fromHeap mcc ∉ state.chunkChunks allocator

/-- What the heap may answer: null, or memory that no chunk has. -/
def AnswersData (state : MyMicroAllocator) (size answer : Nat) : Prop :=
  answer = 0 ∨ answer + size ≤ 2 ^ 64 ∧
    ∀ name, (state.chunk name).data ≠ 0 →
      Apart answer size (state.chunk name).data
        ((state.chunk name).dataEnd - (state.chunk name).data)

def Enabled (fixedSize : Nat) (state : State) : Event → Prop
  | .malloc size mcc answer =>
      ∃ allocator, fixedAllocator size = some allocator ∧
        AnswersChunkChunk state.micro mcc ∧
        AnswersData state.micro (blockSize allocator * (fixedSize / blockSize allocator)) answer
  | .free index => index < state.live.length
  | .write place _ =>
      ∃ block ∈ state.live,
        block.pointer ≤ place ∧ place < block.pointer + blockSize block.allocator

def step (fixedSize : Nat) (state : State) : Event → Option State
  | .malloc size mcc answer => do
      let allocator ← fixedAllocator size
      let (ret, micro) ← state.micro.malloc fixedSize size mcc answer
      return ⟨micro, ⟨ret, size, allocator, micro.current allocator⟩ :: state.live⟩
  | .free index => do
      let block ← state.live[index]?
      let micro ← state.micro.free block.pointer block.chunk
      return ⟨micro, state.live.eraseIdx index⟩
  | .write place value =>
      some { state with micro := { state.micro with
        memory := Function.update state.micro.memory place value } }

/-- The allocator has been constructed in memory from `chunkBase` on. -/
def machine (fixedSize chunkBase : Nat) : Machine State Event where
  Init state := chunkBase ≠ 0 ∧ chunkBase + fixedSize * maxAllocators ≤ 2 ^ 64 ∧
    ∃ memory micro, MyMicroAllocator.new memory fixedSize chunkBase = some micro ∧
      state = ⟨micro, []⟩
  Enabled := Enabled fixedSize
  step := step fixedSize

end MallocSurvey.MicroAllocator

/-! # The invariant of the chunks

A chunk is vacant, or its memory is cut into the blocks on its free list and its live
blocks. -/

namespace MallocSurvey.MicroAllocator

open Library

/-- The live blocks of a chunk. -/
def liveOf (live : List Block) (name : ChunkName) : List Nat :=
  (live.filter fun block => block.chunk = name).map Block.pointer

structure Vacant (chunk : MemoryChunk) (live : List Nat) : Prop where
  data : chunk.data = 0
  dataEnd : chunk.dataEnd = 0
  count : chunk.usedCount = 0
  freeList : chunk.freeList = 0
  live : live = []

/-- A chunk with the blocks of its free list. -/
structure Held (memory : Memory) (chunk : MemoryChunk) (size maxChunks : Nat)
    (live starts : List Nat) : Prop where
  nonzero : chunk.data ≠ 0
  dataEnd : chunk.dataEnd = chunk.data + size * maxChunks
  fits : chunk.dataEnd ≤ 2 ^ 64
  slab : Slab memory 8 chunk.data size maxChunks chunk.freeList live starts
  count : chunk.usedCount = live.length

def ChunkInv (memory : Memory) (chunk : MemoryChunk) (size maxChunks : Nat)
    (live : List Nat) : Prop :=
  Vacant chunk live ∨ ∃ starts, Held memory chunk size maxChunks live starts

def Separate (left right : MemoryChunk) : Prop :=
  left.data ≠ 0 → right.data ≠ 0 →
    Apart left.data (left.dataEnd - left.data) right.data (right.dataEnd - right.data)

structure Inv (fixedSize : Nat) (state : MyMicroAllocator) (live : List Block) : Prop where
  chunks : ∀ allocator, ∀ name : ChunkName, name.chunkChunk ∈ state.chunkChunks allocator →
    ChunkInv state.memory (state.chunk name) (blockSize allocator)
      (fixedSize / blockSize allocator) (liveOf live name)
  others : ∀ name : ChunkName,
    (∀ allocator, name.chunkChunk ∉ state.chunkChunks allocator) → state.chunk name = .new
  apart : ∀ left right, left ≠ right → Separate (state.chunk left) (state.chunk right)
  owner : ∀ left right chunkChunk, chunkChunk ∈ state.chunkChunks left →
    chunkChunk ∈ state.chunkChunks right → left = right
  inside : ∀ allocator, ∃ rest, state.chunkChunks allocator = .inside allocator :: rest
  current : ∀ allocator, (state.current allocator).chunkChunk ∈ state.chunkChunks allocator
  live : ∀ block ∈ live, fixedAllocator block.size = some block.allocator ∧
    block.chunk.chunkChunk ∈ state.chunkChunks block.allocator
  heap : ∀ name, (state.chunk name).myHeap = true ↔
    (state.chunk name).data ≠ 0 ∧ ∀ allocator, name ≠ primary allocator

/-- The chunks in the allocators have memory, and every chunk has room for a block. -/
structure Ready (fixedSize : Nat) (state : MyMicroAllocator) : Prop where
  primary : ∀ allocator, (state.chunk (primary allocator)).data ≠ 0
  room : ∀ allocator, 0 < fixedSize / blockSize allocator

theorem blockSize_ge (allocator : Fin maxAllocators) : 8 ≤ blockSize allocator := by
  revert allocator
  decide

theorem blockSize_le (allocator : Fin maxAllocators) :
    blockSize allocator ≤ maxAllocationSize := by
  revert allocator
  decide

theorem fixedAllocator_size {size : Nat} {allocator : Fin maxAllocators}
    (isAllocator : fixedAllocator size = some allocator) : size ≤ blockSize allocator := by
  have bounds := List.find?_some isAllocator
  exact (of_decide_eq_true bounds).2

/-! ## Lists of blocks -/

theorem linkBlocks_eq (size left : Nat) : ∀ (scan : Nat) (memory : Memory),
    linkBlocks size left scan memory = linkRun 8 size left scan memory := by
  induction left with
  | zero => exact fun _ _ => rfl
  | succ left induction => exact fun scan memory => induction _ _

/-! ## One chunk -/

namespace Held

variable {memory other : Memory} {chunk : MemoryChunk} {size maxChunks : Nat}
  {live starts : List Nat}

theorem isInside (held : Held memory chunk size maxChunks live starts) (wide : 8 ≤ size)
    {start place : Nat} (member : start ∈ starts ∨ start ∈ live) (above : start ≤ place)
    (below : place < start + size) : chunk.isInside place := by
  have bounds := run_bounds (held.slab.mem_run member)
  have isEnd := held.dataEnd
  unfold MemoryChunk.isInside
  omega

end Held

/-- Writes outside a chunk keep it. -/
theorem ChunkInv.congr {memory other : Memory} {chunk : MemoryChunk} {size maxChunks : Nat}
    {live : List Nat} (inv : ChunkInv memory chunk size maxChunks live) (wide : 8 ≤ size)
    (same : ∀ place, chunk.isInside place → other place = memory place) :
    ChunkInv other chunk size maxChunks live := by
  refine inv.imp id ?_
  rintro ⟨starts, held⟩
  refine ⟨starts, { held with slab := held.slab.congr_outside wide ?_ }⟩
  intro place above below
  have isEnd := held.dataEnd
  exact same place ⟨above, by omega⟩

theorem ChunkInv.perm {memory : Memory} {chunk : MemoryChunk} {size maxChunks : Nat}
    {live next : List Nat} (inv : ChunkInv memory chunk size maxChunks live)
    (perm : next.Perm live) : ChunkInv memory chunk size maxChunks next := by
  refine inv.imp ?_ ?_
  · intro vacant
    exact { vacant with live := List.perm_nil.mp (vacant.live ▸ perm) }
  · rintro ⟨starts, held⟩
    exact ⟨starts, { held with
      slab := held.slab.perm perm
      count := held.count.trans perm.length_eq.symm }⟩

/-! ## Changes of one chunk -/

variable {fixedSize : Nat} {state : MyMicroAllocator} {live next : List Block}
  {name : ChunkName} {allocator : Fin maxAllocators}

theorem liveOf_cons (block : Block) (live : List Block) (name : ChunkName) :
    liveOf (block :: live) name =
      if block.chunk = name then block.pointer :: liveOf live name else liveOf live name := by
  unfold liveOf
  by_cases same : block.chunk = name
  · simp [same]
  · simp [same]

theorem mem_liveOf {start : Nat} :
    start ∈ liveOf live name ↔ ∃ block ∈ live, block.chunk = name ∧ block.pointer = start := by
  simp [liveOf, and_assoc]

/-- Whatever happens in the memory of one chunk keeps the others. -/
theorem Inv.setChunk (inv : Inv fixedSize state live)
    (member : name.chunkChunk ∈ state.chunkChunks allocator) {chunk : MemoryChunk}
    {memory : Memory}
    (changed : ChunkInv memory chunk (blockSize allocator) (fixedSize / blockSize allocator)
      (liveOf next name))
    (frame : ∀ other, other ≠ name → ∀ place, (state.chunk other).isInside place →
      memory place = state.memory place)
    (sameLive : ∀ other, other ≠ name → (liveOf next other).Perm (liveOf live other))
    (apart : ∀ other, other ≠ name → Separate chunk (state.chunk other))
    (nextLive : ∀ block ∈ next, fixedAllocator block.size = some block.allocator ∧
      block.chunk.chunkChunk ∈ state.chunkChunks block.allocator)
    (heap : chunk.myHeap = true ↔ chunk.data ≠ 0 ∧ ∀ allocator, name ≠ primary allocator) :
    Inv fixedSize { state.setChunk name chunk with memory := memory } next where
  chunks := by
    intro otherAllocator other otherMember
    change ChunkInv memory (Function.update state.chunk name chunk other) _ _ _
    by_cases same : other = name
    · subst same
      rw [Function.update_self, inv.owner otherAllocator allocator _ otherMember member]
      exact changed
    · rw [Function.update_of_ne same]
      exact ((inv.chunks otherAllocator other otherMember).perm (sameLive other same)).congr
        (blockSize_ge _) (frame other same)
  others := by
    intro other outside
    have different : other ≠ name := fun same => outside allocator (same ▸ member)
    exact (Function.update_of_ne different _ _).trans (inv.others other outside)
  apart := by
    intro left right different
    change Separate (Function.update state.chunk name chunk left)
      (Function.update state.chunk name chunk right)
    by_cases isLeft : left = name
    · subst isLeft
      rw [Function.update_self, Function.update_of_ne (Ne.symm different)]
      exact apart right (Ne.symm different)
    · rw [Function.update_of_ne isLeft]
      by_cases isRight : right = name
      · subst isRight
        rw [Function.update_self]
        exact fun leftData rightData => (apart left isLeft rightData leftData).symm
      · rw [Function.update_of_ne isRight]
        exact inv.apart left right different
  owner := inv.owner
  inside := inv.inside
  current := inv.current
  live := nextLive
  heap := by
    intro other
    change (Function.update state.chunk name chunk other).myHeap = true ↔
      (Function.update state.chunk name chunk other).data ≠ 0 ∧ _
    by_cases same : other = name
    · subst same
      rw [Function.update_self]
      exact heap
    · rw [Function.update_of_ne same]
      exact inv.heap other

theorem Inv.data_of_isInside (inv : Inv fixedSize state live) {place : Nat}
    (inside : (state.chunk name).isInside place) : (state.chunk name).data ≠ 0 := by
  intro zero
  by_cases outside : ∃ allocator, name.chunkChunk ∈ state.chunkChunks allocator
  · obtain ⟨owner, isOwner⟩ := outside
    rcases inv.chunks owner name isOwner with vacant | ⟨starts, held⟩
    · have isEnd := vacant.dataEnd
      unfold MemoryChunk.isInside at inside
      omega
    · exact held.nonzero zero
  · rw [inv.others name (not_exists.mp outside)] at inside
    exact absurd inside.2 (Nat.not_lt_zero place)

/-- A place in one chunk is in no other one. -/
theorem Inv.not_isInside (inv : Inv fixedSize state live) {other : ChunkName}
    (different : other ≠ name) {place : Nat} (inside : (state.chunk name).isInside place) :
    ¬ (state.chunk other).isInside place := by
  intro otherInside
  have between := inv.apart other name different (inv.data_of_isInside otherInside)
    (inv.data_of_isInside inside)
  unfold MemoryChunk.isInside at inside otherInside
  unfold Apart at between
  omega

end MallocSurvey.MicroAllocator
