import MallocSurvey.Library.Extents
import MallocSurvey.Library.FreeLists
import MallocSurvey.Library.Transition
import Mathlib.Data.Nat.Bitwise

/-! # The functions of `dumb_tlsf.cpp`

Pointers are addresses in byte memory with 8-byte words. `answer` is what the system
allocator returns if it is called, zero for `NULL`. A dereference of `NULL`, an index
outside `table` and a pointer that the system allocator did not hand out are `none`. -/

namespace MallocSurvey.DumbTlsf

open Library

/-- The initial value of `alloc_size`, which only `dset_alloc_size` changes. -/
def allocSize : Nat := 1 <<< 20

def maxSize : Nat := 4096 + 3 * 1024

/-- `sizeof(table)/sizeof(void*)` -/
def tableLength : Nat := 44

/-- `sizeof(Header)`, the offset of `data` -/
def sizeofHeader : Nat := 16

/-- `sizeof(size_t)` -/
def sizeofSize : Nat := 8

def segregate1 (esize l1 : Nat) : Nat := (l1 <<< 2 ||| (esize >>> (l1 - 2) &&& 3)) - 8

/-- `31 - __builtin_clz(esize)` is the binary logarithm. -/
def segregate (esize : Nat) : Nat :=
  if esize = 0 then 0 else segregate1 esize (Nat.log2 esize)

/-- The mask clears the three lowest bits. -/
def esizeof (size : Nat) : Nat := (size + 7) / 8 * 8

/-- The static variables, and the regions that the system allocator handed out. -/
structure Heap where
  table : Nat → Nat
  res : Nat
  limit : Nat
  chunkEnd : Nat
  memory : Memory
  reserved : List Extent

/-- `DUMB_TLSF_ALLOCATOR(size)` -/
def allocator (heap : Heap) (size answer : Nat) : Heap :=
  if answer = 0 then heap else { heap with reserved := ⟨answer, size⟩ :: heap.reserved }

/-- `DUMB_TLSF_DEALLOCATOR(p, size)` -/
def deallocator (heap : Heap) (p : Nat) : Option Heap :=
  if p = 0 then some heap
  else if heap.reserved.any (fun region => region.start = p) then
    some { heap with reserved := heap.reserved.eraseP fun region => region.start = p }
  else none

/-- The new chunk of `alloc_e`. -/
def newChunk (heap : Heap) (answer : Nat) : Option Heap :=
  if answer = 0 then none
  else
    let memory := storePointer heap.memory answer heap.res
    some { allocator heap allocSize answer with
      memory := storePointer memory (answer + 8) allocSize
      limit := answer + sizeofHeader
      res := answer
      chunkEnd := answer + allocSize }

def allocE (heap : Heap) (esize index answer : Nat) : Option (Nat × Heap) :=
  if tableLength ≤ index then none
  else if heap.table index ≠ 0 then
    let r := heap.table index
    some (r, { heap with table := Function.update heap.table index (loadPointer heap.memory r) })
  else do
    let heap ← if heap.limit + esize > heap.chunkEnd then newChunk heap answer else some heap
    return (heap.limit, { heap with limit := heap.limit + esize })

def freeE (heap : Heap) (p index : Nat) : Option Heap :=
  if tableLength ≤ index ∨ p = 0 then none
  else some { heap with
    memory := storePointer heap.memory p (heap.table index)
    table := Function.update heap.table index p }

def dalloc (heap : Heap) (size answer : Nat) : Option (Nat × Heap) :=
  if size > maxSize then some (answer, allocator heap size answer)
  else allocE heap (esizeof size) (segregate (esizeof size)) answer

def dfree (heap : Heap) (p size : Nat) : Option Heap :=
  if size > maxSize then deallocator heap p
  else freeE heap p (segregate (esizeof size))

/-- The sum is a `size_t`. -/
def dsalloc (heap : Heap) (size answer : Nat) : Option (Nat × Heap) := do
  let (p, heap) ← dalloc heap ((size + sizeofSize) % 2 ^ 64) answer
  if p = 0 then none
  else return (p + sizeofSize, { heap with memory := storePointer heap.memory p size })

def dsfree (heap : Heap) (p : Nat) : Option Heap :=
  let sp := p - sizeofSize
  dfree heap sp (loadPointer heap.memory sp)

def Heap.initial (memory : Memory) : Heap := ⟨fun _ => 0, 0, 0, 0, memory, []⟩

def dreserve (heap : Heap) (size answer : Nat) : Option Heap :=
  if heap.limit ≠ 0 then some heap
  else if answer = 0 then none
  else
    let memory := storePointer heap.memory answer 0
    some { allocator heap size answer with
      memory := storePointer memory (answer + 8) size
      res := answer
      limit := answer + sizeofHeader
      chunkEnd := answer + size }

/-- The loop of `dreserved_memory` at `blk`; the sum is a `size_t`. The outer `none` says
that it runs longer than the fuel. -/
def dreservedMemory (heap : Heap) : Nat → Nat → Nat → Option Nat
  | 0, _, _ => none
  | fuel + 1, blk, total =>
      if blk = 0 then some total
      else
        dreservedMemory heap fuel (loadPointer heap.memory blk)
          ((total + loadPointer heap.memory (blk + 8)) % 2 ^ 64)

def dusedMemory (fuel : Nat) (heap : Heap) : Option Nat := do
  let total ← dreservedMemory heap fuel heap.res 0
  return ((total - (heap.chunkEnd - heap.limit) : Int) % 2 ^ 64).toNat

/-! ## The size classes -/

theorem le_esizeof (size : Nat) : size ≤ esizeof size := by
  unfold esizeof
  omega

theorem esizeof_mod (size : Nat) : esizeof size % 8 = 0 := Nat.mul_mod_left _ _

theorem esizeof_le {size : Nat} (small : size ≤ maxSize) : esizeof size ≤ maxSize := by
  unfold esizeof maxSize at *
  omega

theorem segregate1_lt {esize l1 : Nat} (small : l1 ≤ 12) :
    segregate1 esize l1 < tableLength := by
  have column : esize >>> (l1 - 2) &&& 3 < 2 ^ 2 :=
    Nat.lt_of_le_of_lt Nat.and_le_right (by decide)
  rw [segregate1, ← Nat.shiftLeft_add_eq_or_of_lt column, Nat.shiftLeft_eq]
  unfold tableLength
  omega

/-- Every size up to `max_size` has a list. -/
theorem segregate_lt {size : Nat} (small : size ≤ maxSize) :
    segregate (esizeof size) < tableLength := by
  unfold segregate
  split
  · decide
  · next nonzero =>
      apply segregate1_lt
      apply Nat.le_of_lt_succ
      apply (Nat.log2_lt nonzero).mpr
      exact Nat.lt_of_le_of_lt (esizeof_le small) (by decide)

end MallocSurvey.DumbTlsf

/-! # A program that uses dumb_tlsf

The events of a run are the calls of `dalloc`, `dfree`, `dsalloc` and `dsfree` and
the writes of the program to its blocks. Beside the heap the state keeps the blocks
in use and the freed ones, each with the bytes it was carved with. -/

namespace MallocSurvey.DumbTlsf

open Library

/-- A block in use; one of `dsalloc` starts with the word that remembers its size. -/
structure Block where
  start : Nat
  room : Nat
  size : Nat
  remembered : Bool
deriving DecidableEq

namespace Block

def header (block : Block) : Nat := if block.remembered then sizeofSize else 0

/-- The pointer that was returned. -/
def address (block : Block) : Nat := block.start + block.header

def whole (block : Block) : Extent := ⟨block.start, block.room⟩

/-- The memory that was asked for. -/
def payload (block : Block) : Extent := ⟨block.address, block.size⟩

end Block

structure State where
  heap : Heap
  live : List Block
  free : List (FreeBlock Nat)

inductive Event
  | dalloc (size answer : Nat)
  | dsalloc (size answer : Nat)
  /-- `dfree(p, size)`, or `dsfree(p)` for a block of `dsalloc` -/
  | free (block : Block)
  /-- The program writes to a block. -/
  | write (place : Nat) (value : UInt8)

namespace State

/-- The freed block that a request finds first on its list. -/
def reused (state : State) (size : Nat) : Option (FreeBlock Nat) :=
  if size > maxSize then none else firstOf (segregate (esizeof size)) state.free

/-- The bytes that the block for a request was carved with. -/
def roomFor (state : State) (size : Nat) : Nat :=
  match state.reused size with
  | some block => block.room
  | none => if size > maxSize then size else esizeof size

/-- The state after an allocation of `request` bytes that returned a block. -/
def allocated (state : State) (heap : Heap) (start request size : Nat)
    (remembered : Bool) : State where
  heap := heap
  live := ⟨start, state.roomFor request, size, remembered⟩ :: state.live
  free := match state.reused request with
    | some block => dropFirst block.bin state.free
    | none => state.free

/-- `dfree` and `dsfree` keep blocks up to `max_size`. -/
def freed (state : State) (heap : Heap) (block : Block) : State where
  heap := heap
  live := state.live.erase block
  free := if block.size > maxSize then state.free
    else ⟨segregate (esizeof block.size), block.start, block.room⟩ :: state.free

end State

/-- What the system allocator may answer: `NULL` or memory not handed out before. -/
def Answers (reserved : List Extent) (size answer : Nat) : Prop :=
  answer = 0 ∨ answer + size ≤ 2 ^ 64 ∧ ∀ region ∈ reserved, Extent.Apart ⟨answer, size⟩ region

/-- The bytes that a request asks the system allocator for, if any. -/
def systemSize (request : Nat) : Nat := if request > maxSize then request else allocSize

def Enabled (state : State) : Event → Prop
  | .dalloc size answer =>
      size < 2 ^ 64 ∧ Answers state.heap.reserved (systemSize size) answer
  | .dsalloc size answer =>
      size < 2 ^ 64 ∧
        Answers state.heap.reserved (systemSize ((size + sizeofSize) % 2 ^ 64)) answer
  | .free block => block ∈ state.live
  | .write place _ =>
      ∃ block ∈ state.live, block.address ≤ place ∧ place < block.address + block.size

/-- `dsfree(p)` or `dfree(p, size)` -/
def freeCall (heap : Heap) (block : Block) : Option Heap :=
  if block.remembered then dsfree heap block.address else dfree heap block.address block.size

def step (state : State) : Event → Option State
  | .dalloc size answer => do
      let (p, heap) ← dalloc state.heap size answer
      if p = 0 then return { state with heap := heap }
      else return state.allocated heap p size size false
  | .dsalloc size answer => do
      let (p, heap) ← dsalloc state.heap size answer
      return state.allocated heap (p - sizeofSize) ((size + sizeofSize) % 2 ^ 64) size true
  | .free block => do
      let heap ← freeCall state.heap block
      return state.freed heap block
  | .write place value =>
      some { state with heap := { state.heap with
        memory := Function.update state.heap.memory place value } }

def machine : Machine State Event where
  Init state := ∃ memory, state = ⟨Heap.initial memory, [], []⟩
  Enabled := Enabled
  step := step

/-- Every block in use is as large as requested, lies in reserved memory and is apart
from the others. -/
structure Safe (state : State) : Prop where
  large : ∀ block ∈ state.live, block.header + block.size ≤ block.room
  inside : ∀ block ∈ state.live, block.size ≠ 0 →
    ∃ region ∈ state.heap.reserved, block.payload.Inside region
  apart : (state.live.map Block.payload).Pairwise Extent.Apart

/-- A block found on the list of a request was carved with enough bytes for it. -/
def Fits (state : State) (request : Nat) : Prop :=
  ∀ block, state.reused request = some block → esizeof request ≤ block.room

/-- The calls on which the allocator does not slip. -/
def Meets (state : State) : Event → Prop
  | .dalloc size _ => Fits state size
  | .dsalloc size _ => size + sizeofSize < 2 ^ 64 ∧ Fits state (size + sizeofSize)
  | .free block => block.size ≤ maxSize → sizeofSize ≤ block.room
  | .write _ _ => True

/-- The events that return a block. -/
def Event.Allocates : Event → Prop
  | .dalloc _ _ | .dsalloc _ _ => True
  | .free _ | .write _ _ => False

end MallocSurvey.DumbTlsf
