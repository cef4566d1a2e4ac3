import MallocSurvey.Library.Slab
import MallocSurvey.Library.Extents
import MallocSurvey.Library.FreeLists
import MallocSurvey.Library.Transition

/-! # The pools of winnie2

`fixed_allocator` of `winnie.cpp` and the standard library adapter of `winnie.hpp`.
`answer` is what `malloc` returns if it is called, zero for `NULL`. A dereference of
`NULL`, a division by zero, an index outside `_first_frees` and a `free` of a pointer
that `malloc` did not return are `none`. -/

namespace MallocSurvey.Winnie2

open Library

def UPTO : Nat := 257

/-- `LARGE_BLOCK_SIZE` -/
def largeBlockSize : Nat := 1024 * 1000

def nBlocks (size : Nat) : Nat := largeBlockSize / size

/-- The conversion of a `size_t` to `int`. -/
def toInt (value : Nat) : Int := Int.bmod value (2 ^ 32)

/-- `fixed_allocator`, and the regions that `malloc` handed out. -/
structure FixedAllocator where
  firstFrees : Nat → Nat
  memory : Memory
  reserved : List Extent

def FixedAllocator.initial (memory : Memory) : FixedAllocator := ⟨fun _ => 0, memory, []⟩

/-- One iteration of the loop of `new_block`. -/
def linkBlock (block size : Nat) (memory : Memory) (i : Nat) : Memory :=
  storePointer memory (block + i * size)
    (if i ≠ nBlocks size - 1 then block + (i + 1) * size else 0)

/-- The memory after the loop of `new_block`. -/
def linkBlocks (block size : Nat) (memory : Memory) : Memory :=
  (List.range (nBlocks size)).foldl (linkBlock block size) memory

def newBlock (fa : FixedAllocator) (size answer : Nat) : Option (Nat × FixedAllocator) :=
  if size = 0 ∨ answer = 0 then none
  else some (answer, { fa with
    memory := linkBlocks answer size fa.memory
    reserved := ⟨answer, largeBlockSize⟩ :: fa.reserved })

def fixedMalloc (fa : FixedAllocator) (size answer : Nat) : Option (Nat × FixedAllocator) := do
  if UPTO ≤ size then none
  else
    let (firstFree, fa) ←
      if fa.firstFrees size = 0 then newBlock fa size answer else some (fa.firstFrees size, fa)
    return (firstFree, { fa with
      firstFrees := Function.update fa.firstFrees size (loadPointer fa.memory firstFree) })

def fixedFree (fa : FixedAllocator) (ptr size : Nat) : Option FixedAllocator :=
  if UPTO ≤ size ∨ ptr = 0 then none
  else some { fa with
    memory := storePointer fa.memory ptr (fa.firstFrees size)
    firstFrees := Function.update fa.firstFrees size ptr }

def malloc (fa : FixedAllocator) (size answer : Nat) : Nat × FixedAllocator :=
  if answer = 0 then (0, fa)
  else (answer, { fa with reserved := ⟨answer, size⟩ :: fa.reserved })

def free (fa : FixedAllocator) (ptr : Nat) : Option FixedAllocator :=
  if ptr = 0 then some fa
  else if fa.reserved.any (fun region => region.start = ptr) then
    some { fa with reserved := fa.reserved.eraseP fun region => region.start = ptr }
  else none

/-- A negative granularity is an index before `_first_frees`. -/
def wmalloc (fa : FixedAllocator) (granularity : Int) (answer : Nat) :
    Option (Nat × FixedAllocator) :=
  if granularity > 256 then some (malloc fa granularity.toNat answer)
  else if granularity < 0 then none
  else fixedMalloc fa granularity.toNat answer

def wfree (fa : FixedAllocator) (ptr : Nat) (granularity : Int) : Option FixedAllocator :=
  if granularity > 256 then free fa ptr
  else if granularity < 0 then none
  else fixedFree fa ptr granularity.toNat

/-- What a call of `allocate` ends with. -/
inductive Outcome
  | pointer (p : Nat)
  | badAlloc

/-- The product is a `size_t`, the parameter of `wmalloc` an `int`. -/
def allocate (sizeofT : Nat) (fa : FixedAllocator) (s answer : Nat) :
    Option (Outcome × FixedAllocator) :=
  if s = 0 then some (.pointer 0, fa)
  else do
    let (temp, fa) ← wmalloc fa (toInt (s * sizeofT % 2 ^ 64)) answer
    return (if temp = 0 then .badAlloc else .pointer temp, fa)

def deallocate (fa : FixedAllocator) (p sz : Nat) : Option FixedAllocator :=
  wfree fa p (toInt sz)

/-! ## The links of a new block -/

theorem linkBlock_outside {block size : Nat} {memory : Memory} {i place : Nat}
    (outside : place < block + i * size ∨ block + i * size + 8 ≤ place) :
    linkBlock block size memory i place = memory place :=
  storeBytes_outside outside

/-- Blocks of at least a word keep their links apart. -/
theorem linkBlocks_spec (block : Nat) {size : Nat} (word : 8 ≤ size) (memory : Memory)
    (count : Nat) :
    (∀ i < count, (i ≠ nBlocks size - 1 → block + (i + 1) * size < 2 ^ 64) →
      loadPointer ((List.range count).foldl (linkBlock block size) memory)
          (block + i * size) =
        if i ≠ nBlocks size - 1 then block + (i + 1) * size else 0) ∧
    ∀ place, place < block ∨ block + count * size ≤ place →
      (List.range count).foldl (linkBlock block size) memory place = memory place := by
  induction count with
  | zero => exact ⟨fun i inRange => absurd inRange (Nat.not_lt_zero i), fun _ _ => rfl⟩
  | succ count induction =>
      obtain ⟨links, others⟩ := induction
      simp only [List.range_succ, List.foldl_append, List.foldl_cons, List.foldl_nil]
      constructor
      · intro i inRange fits
        by_cases isLast : i = count
        · subst isLast
          apply loadPointer_storePointer
          split
          · next notLast => exact fits notLast
          · exact Nat.two_pow_pos 64
        · have before : i + 1 ≤ count := by omega
          rw [← links i before fits]
          apply loadPointer_storePointer_apart
          have step := Nat.mul_le_mul_right size before
          rw [Nat.add_mul, Nat.one_mul] at step
          exact .inr (by omega)
      · intro place outside
        rw [Nat.add_mul, Nat.one_mul] at outside
        rw [linkBlock_outside (by omega)]
        exact others place (by omega)

theorem largeBlockSize_pos : 0 < largeBlockSize := by decide

theorem toInt_of_lt {value : Nat} (small : value < 2 ^ 31) : toInt value = value := by
  apply Int.bmod_eq_of_le
  · omega
  · have modulus : ((2 ^ 32 : Nat) : Int) = 4294967296 := rfl
    rw [modulus]
    omega

end MallocSurvey.Winnie2

/-! # A program that allocates with `winnie2::allocator<T>`

Beside the pools the state keeps the blocks that were allocated and not yet
deallocated, where each of them came from, and the large blocks that were carved. -/

namespace MallocSurvey.Winnie2

open Library

/-- Where a call of `wmalloc` or `wfree` goes. -/
inductive Source
  | heap
  | bin (size : Int)
deriving DecidableEq

def route (granularity : Int) : Source :=
  if granularity > 256 then .heap else .bin granularity

/-- A pointer returned by `allocate(count)`; `NULL` came from nowhere. -/
structure Block where
  start : Nat
  count : Nat
  source : Option Source
deriving DecidableEq

structure State where
  fa : FixedAllocator
  /-- The pointer returned last is in front. -/
  live : List Block
  free : List (FreeBlock Nat)
  /-- The results of `new_block` and the sizes they were carved into. -/
  chunks : List (Nat × Nat)
  /-- For each deallocated block where it came from and where it was returned. -/
  returned : List (Option Source × Source)

def State.initial (memory : Memory) : State := ⟨.initial memory, [], [], [], []⟩

inductive Event
  | allocate (count answer : Nat)
  /-- `deallocate` for the `index`-th of the live pointers -/
  | deallocate (index : Nat)
  /-- The program writes to a block. -/
  | write (place : Nat) (value : UInt8)

/-- The argument of `wmalloc` for `count` elements. -/
def granularity (sizeofT count : Nat) : Int := toInt (count * sizeofT % 2 ^ 64)

/-- The free blocks of all bins after `new_block` carved one. -/
def carved (size start : Nat) (free : List (FreeBlock Nat)) : List (FreeBlock Nat) :=
  (run start (nBlocks size) size).map (fun block => ⟨size, block, size⟩) ++ free

/-- The free blocks and large blocks after `wmalloc`. -/
def State.served (state : State) (source : Source) (answer : Nat) :
    List (FreeBlock Nat) × List (Nat × Nat) :=
  match source with
  | .heap => (state.free, state.chunks)
  | .bin size =>
      if state.fa.firstFrees size.toNat = 0 then
        (dropFirst size.toNat (carved size.toNat answer state.free),
          (size.toNat, answer) :: state.chunks)
      else (dropFirst size.toNat state.free, state.chunks)

/-- The free blocks after `wfree`. -/
def State.returnedTo (state : State) (source : Source) (start : Nat) : List (FreeBlock Nat) :=
  match source with
  | .heap => state.free
  | .bin size => ⟨size.toNat, start, size.toNat⟩ :: state.free

/-- The bytes that a request asks `malloc` for, if any. -/
def systemSize (source : Source) (granularity : Int) : Nat :=
  match source with
  | .heap => granularity.toNat
  | .bin _ => largeBlockSize

/-- What `malloc` may answer: `NULL` or memory not handed out before. -/
def Answers (reserved : List Extent) (size answer : Nat) : Prop :=
  answer = 0 ∨ answer + size ≤ 2 ^ 64 ∧ ∀ region ∈ reserved, Extent.Apart ⟨answer, size⟩ region

def Enabled (sizeofT : Nat) (state : State) : Event → Prop
  | .allocate count answer =>
      Answers state.fa.reserved
        (systemSize (route (granularity sizeofT count)) (granularity sizeofT count)) answer
  | .deallocate index => index < state.live.length
  | .write place _ =>
      ∃ block ∈ state.live,
        block.start ≤ place ∧ place < block.start + block.count * sizeofT

/-- The state after `allocate` has returned or thrown. -/
def State.allocated (sizeofT : Nat) (state : State) (count answer : Nat)
    (fa : FixedAllocator) : Outcome → State
  | .badAlloc => { state with fa := fa }
  | .pointer p =>
      if count = 0 then { state with fa := fa, live := ⟨p, count, none⟩ :: state.live }
      else
        let source := route (granularity sizeofT count)
        { state with
          fa := fa
          live := ⟨p, count, some source⟩ :: state.live
          free := (state.served source answer).1
          chunks := (state.served source answer).2 }

/-- The state after `deallocate` for the `index`-th pointer. -/
def State.deallocated (state : State) (index : Nat) (block : Block)
    (fa : FixedAllocator) : State :=
  let target := route (toInt block.count)
  { state with
    fa := fa
    live := state.live.eraseIdx index
    free := state.returnedTo target block.start
    returned := (block.source, target) :: state.returned }

def step (sizeofT : Nat) (state : State) : Event → Option State
  | .allocate count answer => do
      let (outcome, fa) ← allocate sizeofT state.fa count answer
      return state.allocated sizeofT count answer fa outcome
  | .deallocate index => do
      let block ← state.live[index]?
      let fa ← deallocate state.fa block.start block.count
      return state.deallocated index block fa
  | .write place value =>
      some { state with fa := { state.fa with
        memory := Function.update state.fa.memory place value } }

/-- The program of an element type of `sizeofT` bytes. -/
def machine (sizeofT : Nat) : Machine State Event where
  Init state := ∃ memory, state = .initial memory
  Enabled := Enabled sizeofT
  step := step sizeofT

/-- The calls that the adapter gets right: no `NULL` is deallocated, the blocks hold
at least a word, their size is an `int`, and the element count of a deallocation goes
where the number of bytes went. -/
def Meets (sizeofT : Nat) (state : State) : Event → Prop
  | .allocate count _ => count = 0 ∨ 8 ≤ count * sizeofT ∧ count * sizeofT < 2 ^ 31
  | .deallocate index => ∀ block, state.live[index]? = some block →
      block.count ≠ 0 ∧ (sizeofT = 1 ∨ 256 < block.count)
  | .write _ _ => True

def Block.whole (sizeofT : Nat) (block : Block) : Extent := ⟨block.start, block.count * sizeofT⟩

/-- The address is one of those a large block of the bin was carved into. -/
def FromBin (chunks : List (Nat × Nat)) (size start : Nat) : Prop :=
  ∃ chunk ∈ chunks, chunk.1 = size ∧ start ∈ run chunk.2 (nBlocks size) size

/-- Every block went back to where it came from, and the bins hold and hand out only
what was carved for them. -/
structure Sound (sizeofT : Nat) (state : State) : Prop where
  returned : ∀ pair ∈ state.returned, pair.1 = some pair.2
  free : ∀ block ∈ state.free, FromBin state.chunks block.bin block.start
  pooled : ∀ block ∈ state.live, ∀ size, block.source = some (.bin size) →
    size = (block.count * sizeofT : Nat) ∧
      FromBin state.chunks (block.count * sizeofT) block.start
  fromHeap : ∀ block ∈ state.live, block.source = some .heap →
    block.whole sizeofT ∈ state.fa.reserved

end MallocSurvey.Winnie2
