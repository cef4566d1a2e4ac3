import Mathlib.Data.Option.Basic
import MallocSurvey.Library.ByteMemory
import MallocSurvey.Library.Extents
import MallocSurvey.Library.Transition

/-! # The pools of `winnie3/winnie.hpp`

One thread. `ThreadAllocatorState` of a size is known by its size, and `answer` is what
`new char[]` returns if it is called, zero where it throws. A `delete[]` of what is not
allocated has no result. -/

namespace MallocSurvey.Winnie3

open Library

/-- `USE_OPERATOR_NEW` -/
def useOperatorNew : Nat := 512

/-- `CHUNK_SIZE` -/
def chunkSize : Nat := 4096

/-- `sizeof(SChunkHeader)` -/
def sizeofHeader : Nat := 8

/-- `SIZE` of the free lists for a type of that size -/
def poolSize (sizeofT : Nat) : Nat := if 8 ≤ sizeofT then sizeofT else 8

structure ThreadAllocatorState where
  next : Option Nat
  /-- the size that the `Cleaner` is for -/
  cleaner : Option Nat
  chunksHead : Nat
  firstFree : Nat

structure Pools where
  state : Nat → ThreadAllocatorState
  /-- `pThreadAllocatorStates` -/
  states : Option Nat
  memory : Memory
  /-- what `new char[]` has returned and `delete[]` has not taken back -/
  allocated : List Extent

namespace Pools

variable (pools : Pools)

def setState (size : Nat) (state : ThreadAllocatorState) : Pools :=
  { pools with state := Function.update pools.state size state }

/-- A block goes in front of the free list. -/
def Deallocate (size p : Nat) : Pools :=
  { pools with
    memory := storePointer pools.memory p (pools.state size).firstFree
    state := Function.update pools.state size { pools.state size with firstFree := p } }

/-- The state goes in front of the registered ones. -/
def register (size : Nat) : Pools :=
  let registered := pools.setState size
    { pools.state size with
      next := pools.states
      cleaner := some size }
  { registered with states := some size }

/-- `if (!ThreadAllocatorState.m_pChunksHead)` -/
def registerFirst (size : Nat) : Pools :=
  if (pools.state size).chunksHead = 0 then pools.register size else pools

/-- The loop of `NewChunk` over the blocks from the `i`-th down. -/
def linkBlocks (size chunkStorage : Nat) : Nat → Pools → Pools
  | 0, pools => pools
  | i + 1, pools =>
      linkBlocks size chunkStorage i (pools.Deallocate size (chunkStorage + i * size))

/-- `NewChunk` after `new char[]` has returned -/
def addChunk (size newChunk : Nat) : Pools :=
  let added := pools.setState size { pools.state size with chunksHead := newChunk }
  let linked := { added with
    memory := storePointer pools.memory newChunk (pools.state size).chunksHead
    allocated := ⟨newChunk, chunkSize + sizeofHeader⟩ :: pools.allocated }
  linkBlocks size (newChunk + sizeofHeader) (chunkSize / size) linked

/-- The first free block is taken. -/
def take (size : Nat) : Nat × Pools :=
  let free := (pools.state size).firstFree
  (free, pools.setState size
    { pools.state size with firstFree := loadPointer pools.memory free })

/-- There is no pointer where `new char[]` throws. -/
def Allocate (size answer : Nat) : Option Nat × Pools :=
  if (pools.state size).firstFree = 0 then
    if answer = 0 then (none, pools.registerFirst size)
    else
      let (p, after) := ((pools.registerFirst size).addChunk size answer).take size
      (some p, after)
  else
    let (p, after) := pools.take size
    (some p, after)

/-- `delete[] (char*)p` -/
def delete (p : Nat) : Option Pools :=
  if pools.allocated.any (fun region => region.start = p) then
    some { pools with
      allocated := pools.allocated.eraseP fun region => region.start = p }
  else none

/-- The loop of `Cleaner`. -/
def deleteChunks : (steps chunk : Nat) → Pools → Option Pools
  | 0, _, _ => none
  | steps + 1, chunk, pools =>
      if chunk = 0 then some pools
      else do
        let next := loadPointer pools.memory chunk
        let pools ← pools.delete chunk
        deleteChunks steps next pools

/-- A call of `Cleaner`, each step of which deletes a chunk. -/
def Cleaner (size : Nat) : Option Pools :=
  deleteChunks (pools.allocated.length + 1) (pools.state size).chunksHead pools

/-- The loop of `CleanThreadAllocatorState`. -/
def cleanStates : (steps : Nat) → Option Nat → Pools → Option Pools
  | 0, _, _ => none
  | _, none, pools => some pools
  | steps + 1, some size, pools => do
      let cleaner ← (pools.state size).cleaner
      let pools ← pools.Cleaner cleaner
      cleanStates steps (pools.state size).next pools

/-- There are not more states than sizes. -/
def CleanThreadAllocatorState : Option Pools :=
  cleanStates (useOperatorNew + 1) pools.states pools

end Pools

/-! ## A thread -/

structure Block where
  start : Nat
  size : Nat

def Block.extent (block : Block) : Extent := ⟨block.start, block.size⟩

structure State where
  pools : Pools
  live : List Block
  /-- the sizes that `NewChunk` has registered -/
  registered : List Nat
  /-- the sizes whose free list was not empty when a clean deleted their chunks -/
  stale : Nat → Bool
  /-- a clean has deleted chunks -/
  cleaned : Bool

inductive Event where
  | allocate (sizeofT answer : Nat)
  /-- `Deallocate` of the `index`-th live block -/
  | deallocate (index : Nat)
  | clean
  /-- The program writes to a block. -/
  | write (place : Nat) (value : UInt8)

namespace State

variable (state : State)

/-- `Allocate` calls `NewChunk` for the first time. -/
def Registers (size : Nat) : Prop :=
  (state.pools.state size).firstFree = 0 ∧ (state.pools.state size).chunksHead = 0

instance (size : Nat) : Decidable (state.Registers size) :=
  inferInstanceAs (Decidable (_ ∧ _))

def allocate (size answer : Nat) : State :=
  let (p, pools) := state.pools.Allocate size answer
  { state with
    pools := pools
    live := (p.map fun start => ⟨start, size⟩).toList ++ state.live
    registered :=
      if state.Registers size then size :: state.registered else state.registered }

/-- The clean ends the life of all blocks of the thread. -/
def clean : Option State := do
  let pools ← state.pools.CleanThreadAllocatorState
  return { state with
    pools := pools
    live := []
    stale := fun size => state.stale size || (state.pools.state size).firstFree != 0
    cleaned := state.cleaned || !state.pools.allocated.isEmpty }

end State

def step (state : State) : Event → Option State
  | .allocate sizeofT answer => some (state.allocate (poolSize sizeofT) answer)
  | .deallocate index => do
      let block ← state.live[index]?
      return { state with
        pools := state.pools.Deallocate block.size block.start
        live := state.live.eraseIdx index }
  | .clean => state.clean
  | .write place value =>
      some { state with pools := { state.pools with
        memory := Function.update state.pools.memory place value } }

/-- What `new char[]` may return. -/
def Answers (allocated : List Extent) (answer : Nat) : Prop :=
  answer = 0 ∨ answer + (chunkSize + sizeofHeader) ≤ 2 ^ 64 ∧
    ∀ region ∈ allocated, Extent.Apart ⟨answer, chunkSize + sizeofHeader⟩ region

def Enabled (state : State) : Event → Prop
  | .allocate sizeofT answer =>
      0 < sizeofT ∧ sizeofT ≤ useOperatorNew ∧ Answers state.pools.allocated answer
  | .deallocate index => index < state.live.length
  | .clean => True
  | .write place _ =>
      ∃ block ∈ state.live, block.start ≤ place ∧ place < block.start + block.size

/-- Nothing is allocated or registered. -/
structure Started (state : State) : Prop where
  untouched : ∀ size, state.pools.state size = ⟨none, none, 0, 0⟩
  states : state.pools.states = none
  allocated : state.pools.allocated = []
  live : state.live = []
  registered : state.registered = []
  stale : ∀ size, state.stale size = false
  cleaned : state.cleaned = false

def machine : Machine State Event where
  Init := Started
  Enabled := Enabled
  step := step

end MallocSurvey.Winnie3
