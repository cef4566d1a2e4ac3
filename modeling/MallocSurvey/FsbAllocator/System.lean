import MallocSurvey.Library.ByteMemory
import MallocSurvey.Library.Slab
import MallocSurvey.Library.Transition
import Mathlib.Data.List.Basic
import Mathlib.Logic.Function.Basic

/-! # `FSBAllocator_ElemAllocator` of `FSBAllocator.hh`

Memory is a map from the addresses of words to their contents, and all addresses count
words. `answer` is what `new` returns if it is called, zero if it throws. An index outside
`blocksVector.data` is `none`. -/

namespace MallocSurvey.FsbAllocator

abbrev Words := Nat → Nat

/-- `Data_t(-1)` -/
def noUnit : Nat := 2 ^ 64 - 1

def blockElements : Nat := 512

/-- `sizeof(Data_t)` -/
def dSize : Nat := 8

def elemSizeInDSize (elemSize : Nat) : Nat := (elemSize + (dSize - 1)) / dSize

def unitSizeInDSize (elemSize : Nat) : Nat := elemSizeInDSize elemSize + 1

def blockSize (elemSize : Nat) : Nat := blockElements * unitSizeInDSize elemSize

/-- A null `block` has not been allocated. -/
structure MemBlock where
  block : Nat
  firstFreeUnitIndex : Nat
  allocatedElementsAmount : Nat
  endIndex : Nat

namespace MemBlock

/-- `endIndex` is not initialized. -/
def new (endIndex : Nat) : MemBlock := ⟨0, noUnit, 0, endIndex⟩

def isFull (memBlock : MemBlock) : Bool := memBlock.allocatedElementsAmount = blockElements

def clear (memBlock : MemBlock) : MemBlock :=
  { memBlock with block := 0, firstFreeUnitIndex := noUnit }

/-- The unit behind the last one, to which the index of the block is written. -/
def carve (elemSize : Nat) (memBlock : MemBlock) (memory : Words) (vectorIndex : Nat) :
    Nat × MemBlock × Words :=
  let retval := memBlock.block + memBlock.endIndex
  (retval, { memBlock with
      endIndex := memBlock.endIndex + unitSizeInDSize elemSize
      allocatedElementsAmount := memBlock.allocatedElementsAmount + 1 },
    Function.update memory (retval + elemSizeInDSize elemSize) vectorIndex)

/-- The unit that was deallocated last. -/
def reuse (memBlock : MemBlock) (memory : Words) : Nat × MemBlock × Words :=
  let retval := memBlock.block + memBlock.firstFreeUnitIndex
  (retval, { memBlock with
      firstFreeUnitIndex := memory retval
      allocatedElementsAmount := memBlock.allocatedElementsAmount + 1 }, memory)

/-- Null if `new` throws. -/
def allocate (elemSize : Nat) (memBlock : MemBlock) (memory : Words)
    (vectorIndex answer : Nat) : Nat × MemBlock × Words :=
  if memBlock.firstFreeUnitIndex = noUnit then
    if memBlock.block = 0 then
      if answer = 0 then (0, memBlock, memory)
      else carve elemSize { memBlock with block := answer, endIndex := 0 } memory vectorIndex
    else carve elemSize memBlock memory vectorIndex
  else memBlock.reuse memory

def deallocate (memBlock : MemBlock) (memory : Words) (ptr : Nat) : MemBlock × Words :=
  let freed := { memBlock with
    firstFreeUnitIndex := ptr - memBlock.block
    allocatedElementsAmount := memBlock.allocatedElementsAmount - 1 }
  (if freed.allocatedElementsAmount = 0 then freed.clear else freed,
    Function.update memory ptr memBlock.firstFreeUnitIndex)

end MemBlock

/-- The static members. The back of `blocksWithFree` is in front. -/
structure ElemAllocator where
  blocksVector : List MemBlock
  blocksWithFree : List Nat
  memory : Words

namespace ElemAllocator

/-- There is a block with a free unit afterwards. -/
def provide (allocator : ElemAllocator) (endIndex : Nat) : ElemAllocator :=
  if allocator.blocksWithFree = [] then
    { allocator with
      blocksWithFree := [allocator.blocksVector.length]
      blocksVector := allocator.blocksVector ++ [.new endIndex] }
  else allocator

/-- `allocate` with the index of the block that it took the unit from; null if `new`
throws. -/
def allocate (elemSize : Nat) (allocator : ElemAllocator) (answer endIndex : Nat) :
    Option (Nat × Nat × ElemAllocator) := do
  let allocator := allocator.provide endIndex
  let index ← allocator.blocksWithFree.head?
  let block ← allocator.blocksVector[index]?
  let (retval, block, memory) := block.allocate elemSize allocator.memory index answer
  let blocksVector := allocator.blocksVector.set index block
  let blocksWithFree :=
    if block.isFull then allocator.blocksWithFree.tail else allocator.blocksWithFree
  return (retval, index, ⟨blocksVector, blocksWithFree, memory⟩)

def deallocate (elemSize : Nat) (allocator : ElemAllocator) (ptr : Nat) :
    Option ElemAllocator :=
  if ptr = 0 then some allocator
  else do
    let blockIndex := allocator.memory (ptr + elemSizeInDSize elemSize)
    let block ← allocator.blocksVector[blockIndex]?
    let blocksWithFree :=
      if block.isFull then blockIndex :: allocator.blocksWithFree else allocator.blocksWithFree
    let (block, memory) := block.deallocate allocator.memory ptr
    return ⟨allocator.blocksVector.set blockIndex block, blocksWithFree, memory⟩

end ElemAllocator

end MallocSurvey.FsbAllocator

/-! # A program that uses one element size

The state keeps the live elements, each with the index of the block that its unit was taken
from. The program may write to them. -/

namespace MallocSurvey.FsbAllocator

open Library

structure State where
  allocator : ElemAllocator
  live : List (Nat × Nat)

inductive Event
  | allocate (answer endIndex : Nat)
  | deallocate (ptr : Nat)
  | write (place value : Nat)

/-- The extent of a block; an empty one has none. -/
def Holds (elemSize : Nat) (memBlock : MemBlock) (place : Nat) : Prop :=
  memBlock.block ≠ 0 ∧ memBlock.block ≤ place ∧ place < memBlock.block + blockSize elemSize

/-- `new` throws or returns memory that no block has. -/
def Answers (elemSize : Nat) (allocator : ElemAllocator) (answer : Nat) : Prop :=
  answer = 0 ∨ answer + blockSize elemSize < 2 ^ 61 ∧
    ∀ memBlock ∈ allocator.blocksVector, memBlock.block ≠ 0 →
      Apart answer (blockSize elemSize) memBlock.block (blockSize elemSize)

def Enabled (elemSize : Nat) (state : State) : Event → Prop
  | .allocate answer _ => Answers elemSize state.allocator answer
  | .deallocate ptr => ptr = 0 ∨ ptr ∈ state.live.map Prod.snd
  | .write place _ =>
      (∀ memBlock ∈ state.allocator.blocksVector, ¬ Holds elemSize memBlock place) ∨
        ∃ element ∈ state.live, element.2 ≤ place ∧ place < element.2 + elemSizeInDSize elemSize

def step (elemSize : Nat) (state : State) : Event → Option State
  | .allocate answer endIndex => do
      let (retval, index, allocator) ← state.allocator.allocate elemSize answer endIndex
      if retval = 0 then return { state with allocator := allocator }
      else return ⟨allocator, (index, retval) :: state.live⟩
  | .deallocate ptr => do
      let allocator ← state.allocator.deallocate elemSize ptr
      return ⟨allocator, state.live.eraseP fun element => element.2 = ptr⟩
  | .write place value =>
      some { state with allocator := { state.allocator with
        memory := Function.update state.allocator.memory place value } }

/-- Nothing has been allocated. -/
def Init (state : State) : Prop := ∃ memory, state = ⟨⟨[], [], memory⟩, []⟩

def machine (elemSize : Nat) : Machine State Event := ⟨Init, Enabled elemSize, step elemSize⟩

/-- The live elements of a block. -/
def mine (live : List (Nat × Nat)) (index : Nat) : List Nat :=
  (live.filter fun element => element.1 = index).map Prod.snd

/-- The free units of a block from the one that was deallocated last on. -/
def Links (memory : Words) (block : Nat) : Nat → List Nat → Prop
  | first, [] => first = noUnit
  | first, unit :: rest =>
      first ≠ noUnit ∧ block + first = unit ∧ Links memory block (memory unit) rest

/-- A block whose first `carved` units have been handed out. -/
structure Held (elemSize : Nat) (memory : Words) (index : Nat) (memBlock : MemBlock)
    (live chain : List Nat) (carved : Nat) : Prop where
  nonzero : memBlock.block ≠ 0
  fits : memBlock.block + blockSize elemSize < 2 ^ 61
  linked : Links memory memBlock.block memBlock.firstFreeUnitIndex chain
  units : (chain ++ live).Perm (run memBlock.block carved (unitSizeInDSize elemSize))
  amount : memBlock.allocatedElementsAmount = live.length
  endIndex : memBlock.endIndex = carved * unitSizeInDSize elemSize
  bound : carved ≤ blockElements
  index : ∀ unit ∈ run memBlock.block carved (unitSizeInDSize elemSize),
    memory (unit + elemSizeInDSize elemSize) = index

structure Vacant (memBlock : MemBlock) (live : List Nat) : Prop where
  block : memBlock.block = 0
  firstFree : memBlock.firstFreeUnitIndex = noUnit
  amount : memBlock.allocatedElementsAmount = 0
  live : live = []

def BlockInv (elemSize : Nat) (memory : Words) (index : Nat) (memBlock : MemBlock)
    (live : List Nat) : Prop :=
  Vacant memBlock live ∨
    live ≠ [] ∧ ∃ chain carved, Held elemSize memory index memBlock live chain carved

structure Inv (elemSize : Nat) (state : State) : Prop where
  blocks : ∀ (index : Nat) (memBlock : MemBlock), state.allocator.blocksVector[index]? = some memBlock →
    BlockInv elemSize state.allocator.memory index memBlock (mine state.live index)
  owned : ∀ element ∈ state.live, element.1 < state.allocator.blocksVector.length
  apart : ∀ (left right : Nat) (leftBlock rightBlock : MemBlock), left ≠ right →
    state.allocator.blocksVector[left]? = some leftBlock →
    state.allocator.blocksVector[right]? = some rightBlock →
    leftBlock.block ≠ 0 → rightBlock.block ≠ 0 →
    Apart leftBlock.block (blockSize elemSize) rightBlock.block (blockSize elemSize)
  nodup : state.allocator.blocksWithFree.Nodup
  exact : ∀ index, index ∈ state.allocator.blocksWithFree ↔
    ∃ memBlock, state.allocator.blocksVector[index]? = some memBlock ∧ memBlock.isFull = false

variable {elemSize : Nat} {memory other : Words} {index carved : Nat} {memBlock : MemBlock}
  {live chain : List Nat} {state : State}

theorem inv_init (init : Init state) : Inv elemSize state := by
  obtain ⟨memory, isState⟩ := init
  subst isState
  refine ⟨?_, ?_, ?_, List.nodup_nil, ?_⟩
  · intro index memBlock isBlock
    cases isBlock
  · intro element member
    cases member
  · intro left right leftBlock rightBlock _ isLeft
    cases isLeft
  · simp

/-! ## Blocks -/

theorem unit_pos (elemSize : Nat) : 0 < unitSizeInDSize elemSize := Nat.succ_pos _

/-- A unit lies within its block. -/
theorem unit_bounds {unit : Nat}
    (member : unit ∈ run memBlock.block carved (unitSizeInDSize elemSize))
    (bound : carved ≤ blockElements) :
    memBlock.block ≤ unit ∧
      unit + unitSizeInDSize elemSize ≤ memBlock.block + blockSize elemSize := by
  obtain ⟨position, inRange, isUnit⟩ := mem_run.mp member
  have below : (position + 1) * unitSizeInDSize elemSize ≤
      blockElements * unitSizeInDSize elemSize := Nat.mul_le_mul_right _ (by omega)
  rw [Nat.succ_mul] at below
  unfold blockSize
  omega

/-- Two units of a block are the same or apart. -/
theorem units_apart {left right : Nat}
    (leftMem : left ∈ run memBlock.block carved (unitSizeInDSize elemSize))
    (rightMem : right ∈ run memBlock.block carved (unitSizeInDSize elemSize))
    (different : left ≠ right) :
    Apart left (unitSizeInDSize elemSize) right (unitSizeInDSize elemSize) := by
  obtain ⟨first, _, isLeft⟩ := mem_run.mp leftMem
  obtain ⟨second, _, isRight⟩ := mem_run.mp rightMem
  unfold Apart
  rcases Nat.lt_trichotomy first second with below | same | above
  · have product := Nat.mul_le_mul_right (unitSizeInDSize elemSize) (Nat.succ_le_of_lt below)
    rw [Nat.succ_mul] at product
    omega
  · rw [same] at isLeft
    omega
  · have product := Nat.mul_le_mul_right (unitSizeInDSize elemSize) (Nat.succ_le_of_lt above)
    rw [Nat.succ_mul] at product
    omega

theorem Links.congr {block first : Nat} (linked : Links memory block first chain)
    (same : ∀ unit ∈ chain, other unit = memory unit) : Links other block first chain := by
  induction chain generalizing first with
  | nil => exact linked
  | cons unit rest induction =>
      refine ⟨linked.1, linked.2.1, ?_⟩
      rw [same unit List.mem_cons_self]
      exact induction linked.2.2 fun unit member => same unit (List.mem_cons_of_mem _ member)

namespace Held

theorem mem_units (held : Held elemSize memory index memBlock live chain carved) {unit : Nat}
    (member : unit ∈ chain ∨ unit ∈ live) :
    unit ∈ run memBlock.block carved (unitSizeInDSize elemSize) :=
  held.units.mem_iff.mp (List.mem_append.mpr member)

theorem nodup (held : Held elemSize memory index memBlock live chain carved) :
    (chain ++ live).Nodup :=
  held.units.nodup_iff.mpr (run_nodup _ _ (unit_pos elemSize))

theorem length (held : Held elemSize memory index memBlock live chain carved) :
    chain.length + live.length = carved := by
  rw [← List.length_append, held.units.length_eq, run_length]

/-- Only the words of the block that are not in a live element matter. -/
theorem congr (held : Held elemSize memory index memBlock live chain carved)
    (same : ∀ place, Holds elemSize memBlock place →
      (∀ unit ∈ live, place < unit ∨ unit + elemSizeInDSize elemSize ≤ place) →
      other place = memory place) :
    Held elemSize other index memBlock live chain carved := by
  have positive := unit_pos elemSize
  refine { held with linked := held.linked.congr ?_, index := ?_ }
  · intro unit member
    have isUnit := held.mem_units (.inl member)
    have bounds := unit_bounds isUnit held.bound
    apply same unit ⟨held.nonzero, bounds.1, by omega⟩
    intro element isLive
    have different : unit ≠ element := by
      intro equal
      exact (List.nodup_append.mp held.nodup).2.2 unit member element isLive equal
    have apart := units_apart isUnit (held.mem_units (.inr isLive)) different
    unfold Apart unitSizeInDSize at apart
    omega
  · intro unit isUnit
    have bounds := unit_bounds isUnit held.bound
    have sized : unitSizeInDSize elemSize = elemSizeInDSize elemSize + 1 := rfl
    rw [same _ ⟨held.nonzero, by omega, by omega⟩, held.index unit isUnit]
    intro element isLive
    by_cases equal : unit = element
    · exact .inr (equal ▸ Nat.le_refl _)
    · have apart := units_apart isUnit (held.mem_units (.inr isLive)) equal
      unfold Apart at apart
      omega

end Held

theorem BlockInv.congr (inv : BlockInv elemSize memory index memBlock live)
    (same : ∀ place, Holds elemSize memBlock place →
      (∀ unit ∈ live, place < unit ∨ unit + elemSizeInDSize elemSize ≤ place) →
      other place = memory place) : BlockInv elemSize other index memBlock live := by
  refine inv.imp id ?_
  rintro ⟨nonempty, chain, carved, held⟩
  exact ⟨nonempty, chain, carved, held.congr same⟩

end MallocSurvey.FsbAllocator
