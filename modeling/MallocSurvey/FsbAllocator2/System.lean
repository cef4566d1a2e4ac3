import MallocSurvey.FsbAllocator.System
import MallocSurvey.Library.ByteMemory
import MallocSurvey.Library.Slab
import MallocSurvey.Library.CellList
import MallocSurvey.Library.Transition
import Mathlib.Data.List.Perm.Subperm

/-! # `FSBAllocator2_ElemAllocator` of `FSBAllocator.hh`

Memory and addresses are those of the first version. `answer` is what `new` returns if it is
called, zero if it throws. An access to a block that has been deleted is `none`. -/

namespace MallocSurvey.FsbAllocator2

open Library FsbAllocator

def blockElements : Nat := 1024

def blockSize (elemSize : Nat) : Nat := blockElements * elemSizeInDSize elemSize

/-- `sizeMax` is `std::size_t(-1)`. -/
def sizeMax : Nat := 2 ^ 64 - 1

/-- The static members. -/
structure ElemAllocator2 where
  ptrs : List Nat
  headIndex : Nat
  freeList : Nat
  allocatedElementsAmount : Nat
  memory : Words

/-- `for(i = first; i < last; i += stride)` -/
def steps (first last stride : Nat) : List Nat :=
  run first ((last - first + stride - 1) / stride) stride

namespace ElemAllocator2

def freeAll (allocator : ElemAllocator2) : ElemAllocator2 :=
  { allocator with ptrs := allocator.ptrs.take 1, headIndex := 0, freeList := 0 }

/-- Null if `new` throws, which leaves the amount incremented. -/
def allocate (elemSize : Nat) (allocator : ElemAllocator2) (answer : Nat) :
    Option (Nat × ElemAllocator2) :=
  let allocator := { allocator with
    allocatedElementsAmount := (allocator.allocatedElementsAmount + 1) % 2 ^ 64 }
  if allocator.freeList ≠ 0 then
    some (allocator.freeList,
      { allocator with freeList := allocator.memory allocator.freeList })
  else do
    if allocator.headIndex = blockSize elemSize then
      if answer = 0 then return (0, allocator)
      else return (answer, { allocator with
        ptrs := allocator.ptrs ++ [answer], headIndex := elemSizeInDSize elemSize })
    else
      let back ← allocator.ptrs.getLast?
      return (back + allocator.headIndex, { allocator with
        headIndex := allocator.headIndex + elemSizeInDSize elemSize })

def deallocate (allocator : ElemAllocator2) (ptr : Nat) : ElemAllocator2 :=
  if ptr = 0 then allocator
  else
    let allocator := { allocator with
      memory := Function.update allocator.memory ptr allocator.freeList
      freeList := ptr
      allocatedElementsAmount := (allocator.allocatedElementsAmount + sizeMax) % 2 ^ 64 }
    if allocator.allocatedElementsAmount = 0 then allocator.freeAll else allocator

/-! ## `cleanSweep` -/

/-- The first loop; `none` if the free units are more than the fuel. -/
def markFree (unusedValue : Nat) : Nat → Nat → Words → Option Words
  | 0, _, _ => none
  | fuel + 1, freeList, memory =>
      if freeList = 0 then some memory
      else markFree unusedValue fuel (memory freeList)
        (Function.update memory freeList unusedValue)

/-- The units of the last block that have not been handed out. -/
def markRest (elemSize unusedValue headIndex back : Nat) (memory : Words) : Words :=
  (steps headIndex (blockSize elemSize) (elemSizeInDSize elemSize)).foldl
    (fun memory i => Function.update memory (back + i) unusedValue) memory

def freeAmount (elemSize unusedValue : Nat) (memory : Words) (block : Nat) : Nat :=
  (steps 0 (blockSize elemSize) (elemSizeInDSize elemSize)).countP fun i =>
    memory (block + i) = unusedValue

/-- The back takes the place of a block that is deleted. -/
def releaseFree (elemSize unusedValue : Nat) (memory : Words) (ptrs : List Nat)
    (blockInd : Nat) : List Nat :=
  if bound : blockInd < ptrs.length then
    if freeAmount elemSize unusedValue memory ptrs[blockInd] = blockElements then
      releaseFree elemSize unusedValue memory
        (ptrs.set blockInd (ptrs.getLast (List.ne_nil_of_length_pos (by omega)))).dropLast
        blockInd
    else releaseFree elemSize unusedValue memory ptrs (blockInd + 1)
  else ptrs
termination_by ptrs.length - blockInd
decreasing_by
  · simp only [List.length_dropLast, List.length_set]
    omega
  · omega

/-- The new `headIndex`, from the end of this many units of the last block on. -/
def lowerHead (elemSize unusedValue lastBlock : Nat) (memory : Words) : Nat → Nat
  | 0 => 0
  | units + 1 =>
      if memory (lastBlock + units * elemSizeInDSize elemSize) ≠ unusedValue then
        (units + 1) * elemSizeInDSize elemSize
      else lowerHead elemSize unusedValue lastBlock memory units

/-- The last two loops over the pairs of `blockInd` and `i`. -/
def refree (unusedValue lastBlockIndex : Nat) :
    List (Nat × Nat) → ElemAllocator2 → Option ElemAllocator2
  | [], allocator => some allocator
  | (blockInd, i) :: rest, allocator =>
      if blockInd = lastBlockIndex ∧ i = allocator.headIndex then some allocator
      else do
        let block ← allocator.ptrs[blockInd]?
        if allocator.memory (block + i) = unusedValue then
          refree unusedValue lastBlockIndex rest (allocator.deallocate (block + i))
        else refree unusedValue lastBlockIndex rest allocator

def cleanSweep (elemSize unusedValue : Nat) (allocator : ElemAllocator2) :
    Option ElemAllocator2 := do
  let memory ← markFree unusedValue (allocator.ptrs.length * blockElements + 1)
    allocator.freeList allocator.memory
  let back ← allocator.ptrs.getLast?
  let memory := markRest elemSize unusedValue allocator.headIndex back memory
  let ptrs := releaseFree elemSize unusedValue memory allocator.ptrs 1
  let lastBlock ← ptrs.getLast?
  let headIndex := lowerHead elemSize unusedValue lastBlock memory blockElements
  let lastBlockIndex := ptrs.length - 1
  refree unusedValue lastBlockIndex
    ((List.range (lastBlockIndex + 1)).product
      (steps 0 (blockSize elemSize) (elemSizeInDSize elemSize)))
    { allocator with ptrs := ptrs, headIndex := headIndex, freeList := 0, memory := memory }

end ElemAllocator2

end MallocSurvey.FsbAllocator2

/-! # A program that uses one element size of the second version

The state keeps the live elements. The program may write to them. -/

namespace MallocSurvey.FsbAllocator2

open Library FsbAllocator

structure State where
  allocator : ElemAllocator2
  live : List Nat

inductive Event
  | allocate (answer : Nat)
  | deallocate (ptr : Nat)
  | write (place value : Nat)

/-- The extent of a block. -/
def Holds (elemSize block place : Nat) : Prop :=
  block ≤ place ∧ place < block + blockSize elemSize

/-- `new` throws or returns memory that no block has. -/
def Answers (elemSize : Nat) (allocator : ElemAllocator2) (answer : Nat) : Prop :=
  answer = 0 ∨ answer + blockSize elemSize < 2 ^ 61 ∧
    ∀ block ∈ allocator.ptrs, Apart block (blockSize elemSize) answer (blockSize elemSize)

/-- The count of the elements, which failed calls increment as well, does not wrap. -/
def Enabled (elemSize : Nat) (state : State) : Event → Prop
  | .allocate answer =>
      state.allocator.allocatedElementsAmount + 1 < 2 ^ 64 ∧
        Answers elemSize state.allocator answer
  | .deallocate ptr => ptr = 0 ∨ ptr ∈ state.live
  | .write place _ =>
      (∀ block ∈ state.allocator.ptrs, ¬ Holds elemSize block place) ∨
        ∃ element ∈ state.live, element ≤ place ∧ place < element + elemSizeInDSize elemSize

def step (elemSize : Nat) (state : State) : Event → Option State
  | .allocate answer => do
      let (retval, allocator) ← state.allocator.allocate elemSize answer
      if retval = 0 then return { state with allocator := allocator }
      else return ⟨allocator, retval :: state.live⟩
  | .deallocate ptr => some ⟨state.allocator.deallocate ptr, state.live.erase ptr⟩
  | .write place value =>
      some { state with allocator := { state.allocator with
        memory := Function.update state.allocator.memory place value } }

/-- The first block comes with the program. -/
def Init (elemSize : Nat) (state : State) : Prop :=
  ∃ block memory, block ≠ 0 ∧ block + blockSize elemSize < 2 ^ 61 ∧
    state = ⟨⟨[block], 0, 0, 0, memory⟩, []⟩

def machine (elemSize : Nat) : Machine State Event :=
  ⟨Init elemSize, Enabled elemSize, step elemSize⟩

/-- All units of a block. -/
def unitsOf (elemSize block : Nat) : List Nat :=
  run block blockElements (elemSizeInDSize elemSize)

/-- The units of the blocks, the last of which has some that have not been handed out. -/
def carvedUnits (elemSize : Nat) (front : List Nat) (back carved : Nat) : List Nat :=
  front.flatMap (unitsOf elemSize) ++ run back carved (elemSizeInDSize elemSize)

structure Blocks (elemSize : Nat) (ptrs : List Nat) : Prop where
  nonzero : ∀ block ∈ ptrs, block ≠ 0
  fits : ∀ block ∈ ptrs, block + blockSize elemSize < 2 ^ 61
  apart : ptrs.Pairwise fun left right =>
    Apart left (blockSize elemSize) right (blockSize elemSize)

/-- The units that have been handed out are live or linked from `freeList`. -/
structure Rep (elemSize : Nat) (allocator : ElemAllocator2) (live chain front : List Nat)
    (back carved : Nat) : Prop where
  ptrs : allocator.ptrs = front ++ [back]
  blocks : Blocks elemSize allocator.ptrs
  headIndex : allocator.headIndex = carved * elemSizeInDSize elemSize
  bound : carved ≤ blockElements
  freeList : allocator.freeList = chain.headD 0
  linked : Linked id allocator.memory chain
  units : (chain ++ live).Perm (carvedUnits elemSize front back carved)

structure Inv (elemSize : Nat) (state : State) : Prop where
  rep : ∃ chain front back carved,
    Rep elemSize state.allocator state.live chain front back carved
  counted : state.live.length ≤ state.allocator.allocatedElementsAmount
  small : state.allocator.allocatedElementsAmount < 2 ^ 64

variable {elemSize : Nat} {allocator : ElemAllocator2} {live chain front : List Nat}
  {ptrs : List Nat} {back carved : Nat} {state : State}

/-! ## Units -/

theorem mem_unitsOf {block unit : Nat} : unit ∈ unitsOf elemSize block ↔
    ∃ index < blockElements, unit = block + index * elemSizeInDSize elemSize := mem_run

theorem unit_bounds {block unit : Nat} (member : unit ∈ unitsOf elemSize block) :
    block ≤ unit ∧ unit + elemSizeInDSize elemSize ≤ block + blockSize elemSize := by
  obtain ⟨index, inRange, isUnit⟩ := mem_unitsOf.mp member
  have below : (index + 1) * elemSizeInDSize elemSize ≤
      blockElements * elemSizeInDSize elemSize := Nat.mul_le_mul_right _ inRange
  rw [Nat.succ_mul] at below
  unfold blockSize
  omega

/-- Two units of one block are the same or apart. -/
theorem unitsOf_apart {block left right : Nat} (leftMem : left ∈ unitsOf elemSize block)
    (rightMem : right ∈ unitsOf elemSize block) (different : left ≠ right) :
    Apart left (elemSizeInDSize elemSize) right (elemSizeInDSize elemSize) := by
  obtain ⟨first, _, isLeft⟩ := mem_unitsOf.mp leftMem
  obtain ⟨second, _, isRight⟩ := mem_unitsOf.mp rightMem
  unfold Apart
  rcases Nat.lt_trichotomy first second with below | same | above
  · have product := Nat.mul_le_mul_right (elemSizeInDSize elemSize) (Nat.succ_le_of_lt below)
    rw [Nat.succ_mul] at product
    omega
  · rw [same] at isLeft
    omega
  · have product := Nat.mul_le_mul_right (elemSizeInDSize elemSize) (Nat.succ_le_of_lt above)
    rw [Nat.succ_mul] at product
    omega

theorem mem_carvedUnits {unit : Nat} (bound : carved ≤ blockElements)
    (member : unit ∈ carvedUnits elemSize front back carved) :
    unit ∈ (front ++ [back]).flatMap (unitsOf elemSize) := by
  rw [carvedUnits, List.mem_append] at member
  rw [List.flatMap_append, List.mem_append]
  refine member.imp id ?_
  intro inBack
  obtain ⟨index, inRange, isUnit⟩ := mem_run.mp inBack
  exact List.mem_flatMap.mpr
    ⟨back, List.mem_singleton_self _, mem_unitsOf.mpr ⟨index, by omega, isUnit⟩⟩

theorem elemSizeInDSize_pos (word : 0 < elemSize) : 0 < elemSizeInDSize elemSize := by
  unfold elemSizeInDSize dSize
  omega

namespace Blocks

/-- Two units are the same or apart. -/
theorem units_apart (blocks : Blocks elemSize ptrs) {left right : Nat}
    (leftMem : left ∈ ptrs.flatMap (unitsOf elemSize))
    (rightMem : right ∈ ptrs.flatMap (unitsOf elemSize)) (different : left ≠ right) :
    Apart left (elemSizeInDSize elemSize) right (elemSizeInDSize elemSize) := by
  obtain ⟨leftBlock, leftIn, leftUnit⟩ := List.mem_flatMap.mp leftMem
  obtain ⟨rightBlock, rightIn, rightUnit⟩ := List.mem_flatMap.mp rightMem
  by_cases same : leftBlock = rightBlock
  · rw [same] at leftUnit
    exact unitsOf_apart leftUnit rightUnit different
  · have : Std.Symm fun left right => Apart left (blockSize elemSize) right (blockSize elemSize) :=
      ⟨fun _ _ => Apart.symm⟩
    have apart := blocks.apart.forall leftIn rightIn same
    have leftBounds := unit_bounds leftUnit
    have rightBounds := unit_bounds rightUnit
    unfold Apart at apart ⊢
    omega

theorem units_nodup (blocks : Blocks elemSize ptrs) (word : 0 < elemSize) :
    (ptrs.flatMap (unitsOf elemSize)).Nodup := by
  rw [List.nodup_flatMap]
  refine ⟨fun block _ => run_nodup _ _ (elemSizeInDSize_pos word), ?_⟩
  apply blocks.apart.imp
  intro left right apart unit inLeft inRight
  have leftBounds := unit_bounds inLeft
  have rightBounds := unit_bounds inRight
  have positive := elemSizeInDSize_pos word
  unfold Apart at apart
  omega

theorem unit_small (blocks : Blocks elemSize ptrs) {unit : Nat}
    (member : unit ∈ ptrs.flatMap (unitsOf elemSize)) : unit ≠ 0 ∧ unit < 2 ^ 61 := by
  obtain ⟨block, isBlock, isUnit⟩ := List.mem_flatMap.mp member
  have bounds := unit_bounds isUnit
  have nonzero := blocks.nonzero block isBlock
  have fits := blocks.fits block isBlock
  omega

/-- There are fewer units than addresses. -/
theorem units_length (blocks : Blocks elemSize ptrs) (word : 0 < elemSize) :
    ptrs.length * blockElements ≤ 2 ^ 61 := by
  have within : ptrs.flatMap (unitsOf elemSize) ⊆ List.range (2 ^ 61) := by
    intro unit member
    exact List.mem_range.mpr (blocks.unit_small member).2
  have short := (List.subperm_of_subset (blocks.units_nodup word) within).length_le
  rw [List.length_range, List.length_flatMap] at short
  have total : (ptrs.map fun block => (unitsOf elemSize block).length).sum =
      ptrs.length * blockElements := by
    simp [unitsOf]
  rw [← total]
  exact short

end Blocks

theorem carvedUnits_nodup (blocks : Blocks elemSize (front ++ [back])) (word : 0 < elemSize)
    (bound : carved ≤ blockElements) : (carvedUnits elemSize front back carved).Nodup := by
  have nodup := blocks.units_nodup word
  have whole : unitsOf elemSize back = run back carved (elemSizeInDSize elemSize) ++
      run (back + carved * elemSizeInDSize elemSize) (blockElements - carved)
        (elemSizeInDSize elemSize) := by
    rw [unitsOf, ← run_add, Nat.add_sub_cancel' bound]
  rw [List.flatMap_append, List.flatMap_singleton, whole, ← List.append_assoc] at nodup
  exact (List.nodup_append.mp nodup).1

theorem carvedUnits_length :
    (carvedUnits elemSize front back carved).length = front.length * blockElements + carved := by
  simp [carvedUnits, unitsOf]

namespace Rep

theorem mem_units (rep : Rep elemSize allocator live chain front back carved) {unit : Nat}
    (member : unit ∈ chain ∨ unit ∈ live) :
    unit ∈ allocator.ptrs.flatMap (unitsOf elemSize) := by
  rw [rep.ptrs]
  exact mem_carvedUnits rep.bound (rep.units.mem_iff.mp (List.mem_append.mpr member))

theorem nodup (rep : Rep elemSize allocator live chain front back carved)
    (word : 0 < elemSize) : (chain ++ live).Nodup :=
  rep.units.nodup_iff.mpr (carvedUnits_nodup (rep.ptrs ▸ rep.blocks) word rep.bound)

theorem disjoint (rep : Rep elemSize allocator live chain front back carved)
    (word : 0 < elemSize) {unit : Nat} (isFree : unit ∈ chain) : unit ∉ live := by
  intro isLive
  exact (List.nodup_append.mp (rep.nodup word)).2.2 unit isFree unit isLive rfl

theorem live_apart (rep : Rep elemSize allocator live chain front back carved)
    (word : 0 < elemSize) : live.Pairwise fun left right =>
      Apart left (elemSizeInDSize elemSize) right (elemSizeInDSize elemSize) := by
  apply (List.nodup_append.mp (rep.nodup word)).2.1.pairwise_of_forall_ne
  intro left leftMem right rightMem different
  exact rep.blocks.units_apart (rep.mem_units (.inr leftMem)) (rep.mem_units (.inr rightMem))
    different

theorem length (rep : Rep elemSize allocator live chain front back carved) :
    chain.length + live.length = front.length * blockElements + carved := by
  rw [← List.length_append, rep.units.length_eq, carvedUnits_length]

end Rep

theorem inv_init (init : Init elemSize state) : Inv elemSize state := by
  obtain ⟨block, memory, nonzero, fits, isState⟩ := init
  subst isState
  refine ⟨⟨[], [], block, 0, rfl, ⟨?_, ?_, List.pairwise_singleton _ _⟩, ?_, Nat.zero_le _, rfl,
    trivial, .refl _⟩, Nat.le_refl _, Nat.two_pow_pos 64⟩
  · intro other member
    rw [List.mem_singleton.mp member]
    exact nonzero
  · intro other member
    rw [List.mem_singleton.mp member]
    exact fits
  · simp

end MallocSurvey.FsbAllocator2
