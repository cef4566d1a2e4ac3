import Mathlib.Data.Nat.Log
import Mathlib.Logic.Function.Basic

/-! # `MBAlloc` and `MBFree`

The addresses are those of a platform with 4-byte pointers, and a request is a nonnegative
`int`. There is one context, so the one that a megablock refers to is the one at hand. -/

namespace MallocSurvey.Tav

def mballocAlignment : Nat := 4

def subpowerOfTwoBlockSizeAccuracy : Nat := 2

def ptrSize : Nat := 4

def megaBlockSize : Nat := 128 * 1024

def maxBlockSize : Nat := 16 * 1024

/-- `sizeof(BlockHeader)`. -/
def blockHeaderSize : Nat := 4

/-- `sizeof(MegaBlock)`. -/
def megaBlockRecordSize : Nat := 24

def alignUp (size : Nat) : Nat :=
  (size + mballocAlignment - 1) / mballocAlignment * mballocAlignment

def megaBlockHeaderSize : Nat := alignUp (megaBlockRecordSize + blockHeaderSize) - blockHeaderSize

/-- What C leaves to the platform: shifts by a negative count and `_msize`. -/
structure Platform where
  shiftRight : Nat → Int → Nat
  shiftLeft : Nat → Int → Nat
  sysMemSize : Nat → Nat

def Platform.shr (platform : Platform) (value : Nat) (count : Int) : Nat :=
  if 0 ≤ count then value >>> count.toNat else platform.shiftRight value count

def Platform.shl (platform : Platform) (value : Nat) (count : Int) : Nat :=
  if 0 ≤ count then value <<< count.toNat else platform.shiftLeft value count

def getIndexFromSize (platform : Platform) (request : Nat) : Nat :=
  let size := alignUp (request + blockHeaderSize)
  let index := ((size - 1) ||| 1).log2
  (index <<< subpowerOfTwoBlockSizeAccuracy) +
    (platform.shr (size - 1) (index - subpowerOfTwoBlockSizeAccuracy) &&&
      ((1 <<< subpowerOfTwoBlockSizeAccuracy) - 1)) + 1

def getSizeFromIndex (platform : Platform) (index : Nat) : Nat :=
  let baseShift := index >>> subpowerOfTwoBlockSizeAccuracy
  (1 <<< baseShift) |||
    platform.shl (index &&& ((1 <<< subpowerOfTwoBlockSizeAccuracy) - 1))
      (baseShift - subpowerOfTwoBlockSizeAccuracy)

/-- The fields of the megablocks and of the block headers, one map for each field. -/
structure Heap where
  prev : Nat → Nat
  next : Nat → Nat
  firstBlock : Nat → Nat
  index : Nat → Nat
  numOfAllocatedBlocks : Nat → Int
  megaBlock : Nat → Nat
  nextFreeBlock : Nat → Nat

/-- The first four fields are those of `partlyFreeMegaBlocks`. -/
structure Context where
  first : Nat → Nat
  justAllocated : Nat → Nat
  nextFreeBlock : Nat → Nat
  blocksLeft : Nat → Int
  freeMegaBlock : Nat
  filledMegaBlock : Nat
  sysAllocatedBlocks : Int
  sysAllocatedBlocksSize : Int

structure Allocator where
  heap : Heap
  context : Context

/-- The lists that a megablock may be on. -/
inductive Place
  | free
  | filled
  | partly (index : Nat)
deriving DecidableEq

namespace Context

/-- The variable that points to the first megablock of a list. -/
def head (context : Context) : Place → Nat
  | .free => context.freeMegaBlock
  | .filled => context.filledMegaBlock
  | .partly index => context.first index

def setHead (context : Context) (place : Place) (mb : Nat) : Context :=
  match place with
  | .free => { context with freeMegaBlock := mb }
  | .filled => { context with filledMegaBlock := mb }
  | .partly index => { context with first := Function.update context.first index mb }

end Context

namespace Heap

def setPrev (heap : Heap) (mb prev : Nat) : Heap :=
  { heap with prev := Function.update heap.prev mb prev }

def setNext (heap : Heap) (mb next : Nat) : Heap :=
  { heap with next := Function.update heap.next mb next }

def setFirstBlock (heap : Heap) (mb block : Nat) : Heap :=
  { heap with firstBlock := Function.update heap.firstBlock mb block }

def setNumOfAllocatedBlocks (heap : Heap) (mb : Nat) (num : Int) : Heap :=
  { heap with numOfAllocatedBlocks := Function.update heap.numOfAllocatedBlocks mb num }

def setMegaBlock (heap : Heap) (block mb : Nat) : Heap :=
  { heap with megaBlock := Function.update heap.megaBlock block mb }

def setNextFreeBlock (heap : Heap) (block next : Nat) : Heap :=
  { heap with nextFreeBlock := Function.update heap.nextFreeBlock block next }

end Heap

namespace Allocator

/-- A megablock becomes the first one of a doubly linked list. -/
def linkInFront (allocator : Allocator) (place : Place) (mb : Nat) : Allocator :=
  let first := allocator.context.head place
  let heap := (allocator.heap.setPrev mb 0).setNext mb first
  let heap := if first ≠ 0 then heap.setPrev first mb else heap
  ⟨heap, allocator.context.setHead place mb⟩

/-- The first megablock leaves its list. -/
def unlinkFirst (allocator : Allocator) (place : Place) (mb : Nat) : Allocator :=
  let heap := allocator.heap
  let heap := if heap.next mb ≠ 0 then heap.setPrev (heap.next mb) (heap.prev mb) else heap
  ⟨heap, allocator.context.setHead place (heap.next mb)⟩

/-- A megablock leaves its list, in which it may stand anywhere. -/
def unlink (allocator : Allocator) (place : Place) (mb : Nat) : Allocator :=
  let heap := allocator.heap
  let heap := if heap.next mb ≠ 0 then heap.setPrev (heap.next mb) (heap.prev mb) else heap
  if heap.prev mb ≠ 0 then
    { allocator with heap := heap.setNext (heap.prev mb) (heap.next mb) }
  else ⟨heap, allocator.context.setHead place (heap.next mb)⟩

variable (platform : Platform)

/-- A block that the system allocates. -/
def sysAlloc (allocator : Allocator) (size answer : Nat) : Nat × Allocator :=
  let context := allocator.context
  (answer + blockHeaderSize, ⟨allocator.heap.setMegaBlock answer 0, { context with
    sysAllocatedBlocks := context.sysAllocatedBlocks + 1
    sysAllocatedBlocksSize := context.sysAllocatedBlocksSize + size }⟩)

/-- Path 1: a free block of the first megablock that has some. -/
def takeFree (allocator : Allocator) (index : Nat) : Nat × Allocator :=
  let mb := allocator.context.first index
  let heap := allocator.heap
  let heap := heap.setNumOfAllocatedBlocks mb (heap.numOfAllocatedBlocks mb + 1)
  let block := heap.firstBlock mb
  let heap := heap.setFirstBlock mb (heap.nextFreeBlock block)
  let allocator : Allocator := ⟨heap, allocator.context⟩
  (block + blockHeaderSize,
    if heap.firstBlock mb = 0 then
      (allocator.unlinkFirst (.partly index) mb).linkInFront .filled mb
    else allocator)

/-- Path 2: the next block of the megablock that is being carved. -/
def carve (allocator : Allocator) (index : Nat) : Nat × Allocator :=
  let context := allocator.context
  let mb := context.justAllocated index
  let block := context.nextFreeBlock index
  let left := context.blocksLeft index - 1
  (block + blockHeaderSize, ⟨allocator.heap.setMegaBlock block mb, { context with
    nextFreeBlock := Function.update context.nextFreeBlock index
      (block + getSizeFromIndex platform index)
    blocksLeft := Function.update context.blocksLeft index left
    justAllocated := if left = 0 then Function.update context.justAllocated index 0
      else context.justAllocated }⟩)

/-- The rest of paths 3 and 4: a megablock is given to a size class. -/
def start (allocator : Allocator) (index mb : Nat) : Nat × Allocator :=
  let blockSize := getSizeFromIndex platform index
  let num : Int := megaBlockSize / blockSize
  let heap := allocator.heap.setFirstBlock mb 0
  let heap := { heap with index := Function.update heap.index mb index }
  let heap := heap.setNumOfAllocatedBlocks mb num
  let allocator := linkInFront ⟨heap, allocator.context⟩ .filled mb
  let context := allocator.context
  let block := mb + megaBlockHeaderSize
  (block + blockHeaderSize, ⟨allocator.heap.setMegaBlock block mb, { context with
    justAllocated := Function.update context.justAllocated index mb
    blocksLeft := Function.update context.blocksLeft index (num - 1)
    nextFreeBlock := Function.update context.nextFreeBlock index (block + blockSize) }⟩)

/-- The size that a call of `MBAlloc` asks the system for, if it does. -/
def sysRequest (allocator : Allocator) (size : Nat) : Option Nat :=
  if size > maxBlockSize - blockHeaderSize then some (size + blockHeaderSize)
  else
    let index := getIndexFromSize platform (max size 1)
    if allocator.context.first index ≠ 0 ∨ allocator.context.justAllocated index ≠ 0 ∨
      allocator.context.freeMegaBlock ≠ 0 then none
    else some (megaBlockSize + megaBlockHeaderSize)

/-- `answer` is the one of `SysAlloc`; the program faults when it is null. -/
def mbAlloc (allocator : Allocator) (request answer : Nat) : Option (Nat × Allocator) :=
  if request > maxBlockSize - blockHeaderSize then
    if answer = 0 then none else some (allocator.sysAlloc request answer)
  else
    let size := if request < 1 then 1 else request
    let index := getIndexFromSize platform size
    if allocator.context.first index ≠ 0 then some (allocator.takeFree index)
    else if allocator.context.justAllocated index ≠ 0 then some (allocator.carve platform index)
    else
      let mb := allocator.context.freeMegaBlock
      if mb ≠ 0 then
        let context := { allocator.context with freeMegaBlock := allocator.heap.next mb }
        some (start platform ⟨allocator.heap, context⟩ index mb)
      else if answer = 0 then none
      else some (allocator.start platform index answer)

def mbMemSize (heap : Heap) (ptr : Nat) : Int :=
  let block := ptr - blockHeaderSize
  (if heap.megaBlock block ≠ 0 then getSizeFromIndex platform (heap.index (heap.megaBlock block))
    else platform.sysMemSize block) - blockHeaderSize

/-- A block goes back to its megablock, which has others in use. -/
def giveBack (allocator : Allocator) (mb block : Nat) : Allocator :=
  let allocator :=
    if allocator.heap.firstBlock mb = 0 then
      (allocator.unlink .filled mb).linkInFront (.partly (allocator.heap.index mb)) mb
    else allocator
  let heap := allocator.heap.setNextFreeBlock block (allocator.heap.firstBlock mb)
  { allocator with heap := heap.setFirstBlock mb block }

/-- A megablock without blocks in use goes to the free list. -/
def recycle (allocator : Allocator) (mb : Nat) : Allocator :=
  let allocator := allocator.unlink (.partly (allocator.heap.index mb)) mb
  ⟨allocator.heap.setNext mb allocator.context.freeMegaBlock,
    { allocator.context with freeMegaBlock := mb }⟩

def mbFree (allocator : Allocator) (ptr : Nat) : Allocator :=
  let block := ptr - blockHeaderSize
  let mb := allocator.heap.megaBlock block
  let context := allocator.context
  if mb ≠ 0 then
    let num := allocator.heap.numOfAllocatedBlocks mb - 1
    let allocator := { allocator with heap := allocator.heap.setNumOfAllocatedBlocks mb num }
    if num > 0 then allocator.giveBack mb block else allocator.recycle mb
  else { allocator with context := { context with
    sysAllocatedBlocks := context.sysAllocatedBlocks - 1
    sysAllocatedBlocksSize :=
      context.sysAllocatedBlocksSize - mbMemSize platform allocator.heap ptr } }

end Allocator

end MallocSurvey.Tav
