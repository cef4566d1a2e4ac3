import MallocSurvey.Library.ByteMemory
import MallocSurvey.Library.Transition

/-! # The buckets of `balloc`

A list of blocks is found by the address of its header. A null block that is written to is a
fault (`none`). -/

namespace MallocSurvey.Balloc

open Library

def bucketCount : Nat := 4

def blocksToAllocate : Nat := 16

/-- `sizeof( SLIST_ENTRY )`, which is that of a `mem_block` without its bytes. -/
def sizeofEntry : Nat := 16

/-- `sizeof( mem_block_list )` -/
def sizeofList : Nat := 16

/-- The bytes of a block of a bucket. -/
def bucketSize (i : Nat) : Nat := (1 <<< i) * 8

/-- The place of the buckets, and what `malloc` returned for the blocks of each. -/
structure Environment where
  buckets : Nat
  place : Nat → Nat → Nat
  placed : ∀ i < bucketCount, ∀ j < blocksToAllocate, 0 < place i j ∧
    Apart buckets (bucketCount * sizeofList) (place i j) (sizeofEntry + bucketSize i)
  apart : ∀ i < bucketCount, ∀ j < blocksToAllocate, ∀ otherI < bucketCount,
    ∀ otherJ < blocksToAllocate, i ≠ otherI ∨ j ≠ otherJ →
      Apart (place i j) (sizeofEntry + bucketSize i)
        (place otherI otherJ) (sizeofEntry + bucketSize otherI)

/-- `Buckets[i].root` -/
def Environment.bucket (env : Environment) (i : Nat) : Nat := env.buckets + i * sizeofList

/-- The entries of the lists, and the word of a block that is its link or `list`. -/
structure Heap where
  lists : Nat → List Nat
  list : Nat → Nat

namespace Heap

def initializeListHead (heap : Heap) (root : Nat) : Heap :=
  { heap with lists := Function.update heap.lists root [] }

def pushEntryList (heap : Heap) (root entry : Nat) : Heap where
  lists := Function.update heap.lists root (entry :: heap.lists root)
  list := Function.update heap.list entry ((heap.lists root).headD 0)

/-- Null if the list is empty. -/
def popEntryList (heap : Heap) (root : Nat) : Nat × Heap :=
  match heap.lists root with
  | [] => (0, heap)
  | entry :: rest => (entry, { heap with lists := Function.update heap.lists root rest })

end Heap

variable (env : Environment)

/-- The inner loop of `init_buckets`. -/
def fillBucket (i : Nat) : Nat → Heap → Heap
  | 0, heap => heap
  | j + 1, heap => (fillBucket i j heap).pushEntryList (env.bucket i) (env.place i j)

def initBuckets : Nat → Heap → Heap
  | 0, heap => heap
  | i + 1, heap =>
      fillBucket env i blocksToAllocate ((initBuckets i heap).initializeListHead (env.bucket i))

/-- The loop of `balloc` over the buckets that are left. -/
def ballocFrom (heap : Heap) (size : Nat) : List Nat → Option (Nat × Heap)
  | [] => some (0, heap)
  | i :: rest =>
      if size ≤ bucketSize i then
        let (p, heap) := heap.popEntryList (env.bucket i)
        if p = 0 then none
        else some (p + sizeofEntry,
          { heap with list := Function.update heap.list p (env.bucket i) })
      else ballocFrom heap size rest

def balloc (heap : Heap) (size : Nat) : Option (Nat × Heap) :=
  ballocFrom env heap size (List.range bucketCount)

/-- The block itself is taken for the list that it is pushed to. -/
def bfree (heap : Heap) (p : Nat) : Heap :=
  let block := p - sizeofEntry
  heap.pushEntryList block block

/-! ## Runs of a program -/

/-- A pointer and the size that was requested. -/
structure Live where
  ptr : Nat
  size : Nat
deriving DecidableEq

structure State where
  heap : Heap
  live : List Live

inductive Event
  | balloc (size : Nat)
  | bfree (block : Live)

def Enabled (state : State) : Event → Prop
  | .balloc _ => True
  | .bfree block => block ∈ state.live

def step (state : State) : Event → Option State
  | .balloc size => do
      let (p, heap) ← balloc env state.heap size
      return ⟨heap, if p = 0 then state.live else ⟨p, size⟩ :: state.live⟩
  | .bfree block => some ⟨bfree state.heap block.ptr, state.live.erase block⟩

def machine : Machine State Event where
  Init state := ∃ lists list, state = ⟨initBuckets env bucketCount ⟨lists, list⟩, []⟩
  Enabled := Enabled
  step := step env

/-- The bucket that serves a size. -/
def bucketOf (size : Nat) : Option Nat :=
  (List.range bucketCount).find? fun i => size ≤ bucketSize i

/-- Nothing is freed, and the bucket is not exhausted. -/
def Served (state : State) : Event → Prop
  | .balloc size => ∀ i, bucketOf size = some i → state.heap.lists (env.bucket i) ≠ []
  | .bfree _ => False

/-- `balloc` returns null or a block that is apart from the live ones, and `bfree` returns the
block to its bucket. -/
def Recycles (state : State) : Event → Prop
  | .balloc size => ∃ p heap, balloc env state.heap size = some (p, heap) ∧ (p ≠ 0 →
      (∃ i < bucketCount, ∃ j < blocksToAllocate,
        p = env.place i j + sizeofEntry ∧ size ≤ bucketSize i) ∧
      ∀ block ∈ state.live, Apart p size block.ptr block.size)
  | .bfree block => ∀ i, bucketOf block.size = some i →
      (bfree state.heap block.ptr).lists (env.bucket i) =
        (block.ptr - sizeofEntry) :: state.heap.lists (env.bucket i)

/-- The results of some requests one after another. -/
def ballocs (heap : Heap) : List Nat → Option (List Nat × Heap)
  | [] => some ([], heap)
  | size :: rest => do
      let (p, heap) ← balloc env heap size
      let (others, heap) ← ballocs heap rest
      return (p :: others, heap)

end MallocSurvey.Balloc
