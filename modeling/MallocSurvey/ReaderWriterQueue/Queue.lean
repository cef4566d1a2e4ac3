import Mathlib.Algebra.Ring.Nat
import Mathlib.Logic.Function.Basic
import MallocSurvey.Library.Transition

/-! # `readerwriterqueue/readerwriterqueue.h`

One producer and one consumer, each of which does one access to a shared field at a time.
A pointer to a block is its number in the order of construction. The memory of a block is
taken to have room for its elements. -/

namespace MallocSurvey.ReaderWriterQueue

variable {T : Type}

structure Block (T : Type) where
  front : Nat
  tail : Nat
  next : Option Nat
  size : Nat
  data : Nat → T

namespace Block

variable (block : Block T)

def sizeMask : Nat := (block.size + (2 ^ 64 - 1)) % 2 ^ 64

/-- `(index + 1) & sizeMask()` -/
def advance (index : Nat) : Nat := (index + 1) % 2 ^ 64 &&& block.sizeMask

end Block

structure Queue (T : Type) where
  block : Nat → Block T
  constructed : Nat
  frontBlock : Nat
  tailBlock : Nat
  largestBlockSize : Nat

def ceilToPow2 (x : Nat) : Nat :=
  let x := (x + (2 ^ 64 - 1)) % 2 ^ 64
  let x := x ||| x >>> 1
  let x := x ||| x >>> 2
  let x := x ||| x >>> 4
  let x := x ||| x >>> 8
  let x := x ||| x >>> 16
  let x := x ||| x >>> 32
  (x + 1) % 2 ^ 64

namespace Queue

variable (queue : Queue T)

def setBlock (address : Nat) (block : Block T) : Queue T :=
  { queue with block := Function.update queue.block address block }

def storeFront (address front : Nat) : Queue T :=
  queue.setBlock address { queue.block address with front := front }

def storeTail (address tail : Nat) : Queue T :=
  queue.setBlock address { queue.block address with tail := tail }

def storeNext (address : Nat) (next : Option Nat) : Queue T :=
  queue.setBlock address { queue.block address with next := next }

/-- `new (location) T(element)` -/
def construct (address index : Nat) (element : T) : Queue T :=
  queue.setBlock address
    { queue.block address with
      data := Function.update (queue.block address).data index element }

/-- `new Block(largestBlockSize)`; what the elements were is left in the memory. -/
def newBlock : Queue T :=
  let made := queue.setBlock queue.constructed
    { queue.block queue.constructed with
      front := 0
      tail := 0
      next := none
      size := queue.largestBlockSize }
  { made with constructed := queue.constructed + 1 }

end Queue

/-- The constructor, after `assert(maxSize > 0)`. -/
def construct (memory : Nat → Block T) (maxSize : Nat) : Queue T :=
  let made := Queue.newBlock
    { block := memory
      constructed := 0
      frontBlock := 0
      tailBlock := 0
      largestBlockSize := ceilToPow2 ((maxSize + 1) % 2 ^ 64) }
  made.storeNext 0 (some 0)

inductive AllocationMode where
  | canAlloc
  | cannotAlloc
deriving DecidableEq

/-- Where the producer is in `inner_enqueue`: the access it does next. -/
inductive Producer (T : Type) where
  | idle
  | loadTailBlock (mode : AllocationMode) (element : T)
  | loadFront (mode : AllocationMode) (element : T) (tailBlock : Nat)
  | loadTail (mode : AllocationMode) (element : T) (tailBlock blockFront : Nat)
  | construct (mode : AllocationMode) (element : T) (tailBlock blockTail nextBlockTail : Nat)
  | storeTail (mode : AllocationMode) (element : T) (tailBlock nextBlockTail : Nat)
  | loadNext (mode : AllocationMode) (element : T) (tailBlock : Nat)
  | loadFrontBlock (mode : AllocationMode) (element : T) (tailBlock : Nat) (next : Option Nat)
  | loadTailBlockNext (mode : AllocationMode) (element : T) (tailBlock : Nat)
  | loadNextFront (mode : AllocationMode) (element : T) (tailBlockNext : Nat)
  | loadNextTail (mode : AllocationMode) (element : T) (tailBlockNext nextBlockFront : Nat)
  | constructNext (mode : AllocationMode) (element : T) (tailBlockNext nextBlockTail : Nat)
  | storeNextTail (mode : AllocationMode) (element : T) (tailBlockNext nextBlockTail : Nat)
  | newBlock (mode : AllocationMode) (element : T) (tailBlock : Nat)
  | constructNew (mode : AllocationMode) (element : T) (tailBlock newBlock : Nat)
  | storeNewTail (mode : AllocationMode) (element : T) (tailBlock newBlock : Nat)
  | loadNextOfTail (mode : AllocationMode) (element : T) (tailBlock newBlock : Nat)
  | storeNewNext (mode : AllocationMode) (element : T) (tailBlock newBlock : Nat)
      (next : Option Nat)
  | storeNext (mode : AllocationMode) (element : T) (tailBlock newBlock : Nat)
  | storeTailBlock (mode : AllocationMode) (element : T) (tailBlockNext : Nat)
  | returned (mode : AllocationMode) (result : Bool)

/-- Where the consumer is in `try_dequeue`: the access it does next. -/
inductive Consumer (T : Type) where
  | idle
  | loadTailBlock
  | loadFrontBlock (tailBlockAtStart : Nat)
  | loadTail (tailBlockAtStart frontBlock : Nat)
  | loadFront (tailBlockAtStart frontBlock blockTail : Nat)
  | loadNext (frontBlock : Nat)
  | loadNextFront (nextBlock : Nat)
  | loadNextTail (nextBlock nextBlockFront : Nat)
  | storeFrontBlock (nextBlock nextBlockFront : Nat)
  | move (frontBlock blockFront : Nat)
  | storeFront (frontBlock blockFront : Nat) (element : T)
  | returned (result : Option T)

/-- The elements count as enqueued when they are shown to the consumer, and as dequeued
when they are moved out. -/
structure State (T : Type) where
  queue : Queue T
  producer : Producer T
  consumer : Consumer T
  enqueued : List T
  dequeued : List T
  /-- the queue was empty since the call of `try_dequeue` -/
  wasEmpty : Bool

namespace State

variable (state : State T)

def isEmpty : Bool := state.enqueued.length = state.dequeued.length

def observe : State T := { state with wasEmpty := state.wasEmpty || state.isEmpty }

/-- `assert(condition)` -/
def assert (condition : Prop) [Decidable condition] : Option (State T) :=
  if condition then some state else none

def produceTo (producer : Producer T) : State T := { state with producer := producer }

def consumeTo (consumer : Consumer T) : State T := { state with consumer := consumer }

/-- The next access of the producer. -/
def produce : Option (State T) :=
  let queue := state.queue
  match state.producer with
  | .idle | .returned _ _ => some state
  | .loadTailBlock mode element =>
      state.produceTo (.loadFront mode element queue.tailBlock)
  | .loadFront mode element tailBlock =>
      state.produceTo (.loadTail mode element tailBlock (queue.block tailBlock).front)
  | .loadTail mode element tailBlock blockFront =>
      let blockTail := (queue.block tailBlock).tail
      let nextBlockTail := (queue.block tailBlock).advance blockTail
      if nextBlockTail ≠ blockFront then
        state.produceTo (.construct mode element tailBlock blockTail nextBlockTail)
      else state.produceTo (.loadNext mode element tailBlock)
  | .construct mode element tailBlock blockTail nextBlockTail =>
      some { state with
        queue := queue.construct tailBlock blockTail element
        producer := .storeTail mode element tailBlock nextBlockTail }
  | .storeTail mode element tailBlock nextBlockTail =>
      some { state with
        queue := queue.storeTail tailBlock nextBlockTail
        producer := .returned mode true
        enqueued := state.enqueued ++ [element] }
  -- only the producer writes `next`, so that it does not matter which of the two is loaded first
  | .loadNext mode element tailBlock =>
      state.produceTo (.loadFrontBlock mode element tailBlock (queue.block tailBlock).next)
  | .loadFrontBlock mode element tailBlock next =>
      if next ≠ some queue.frontBlock then
        state.produceTo (.loadTailBlockNext mode element tailBlock)
      else match mode with
        | .canAlloc => state.produceTo (.newBlock mode element tailBlock)
        | .cannotAlloc => state.produceTo (.returned mode false)
  | .loadTailBlockNext mode element tailBlock =>
      (queue.block tailBlock).next.map fun tailBlockNext =>
        state.produceTo (.loadNextFront mode element tailBlockNext)
  | .loadNextFront mode element tailBlockNext =>
      state.produceTo
        (.loadNextTail mode element tailBlockNext (queue.block tailBlockNext).front)
  | .loadNextTail mode element tailBlockNext nextBlockFront =>
      let nextBlockTail := (queue.block tailBlockNext).tail
      (state.produceTo (.constructNext mode element tailBlockNext nextBlockTail)).assert
        (nextBlockFront = nextBlockTail)
  | .constructNext mode element tailBlockNext nextBlockTail =>
      some { state with
        queue := queue.construct tailBlockNext nextBlockTail element
        producer := .storeNextTail mode element tailBlockNext nextBlockTail }
  | .storeNextTail mode element tailBlockNext nextBlockTail =>
      some { state with
        queue := queue.storeTail tailBlockNext
          ((queue.block tailBlockNext).advance nextBlockTail)
        producer := .storeTailBlock mode element tailBlockNext }
  | .newBlock mode element tailBlock =>
      let doubled :=
        { queue with largestBlockSize := queue.largestBlockSize * 2 % 2 ^ 64 }
      some { state with
        queue := doubled.newBlock
        producer := .constructNew mode element tailBlock queue.constructed }
  | .constructNew mode element tailBlock newBlock =>
      let after := queue.construct newBlock 0 element
      ({ state with
        queue := after
        producer := .storeNewTail mode element tailBlock newBlock } : State T).assert
          ((after.block newBlock).front = 0)
  | .storeNewTail mode element tailBlock newBlock =>
      some { state with
        queue := queue.storeTail newBlock 1
        producer := .loadNextOfTail mode element tailBlock newBlock }
  | .loadNextOfTail mode element tailBlock newBlock =>
      state.produceTo
        (.storeNewNext mode element tailBlock newBlock (queue.block tailBlock).next)
  | .storeNewNext mode element tailBlock newBlock next =>
      some { state with
        queue := queue.storeNext newBlock next
        producer := .storeNext mode element tailBlock newBlock }
  | .storeNext mode element tailBlock newBlock =>
      some { state with
        queue := queue.storeNext tailBlock (some newBlock)
        producer := .storeTailBlock mode element newBlock }
  | .storeTailBlock mode element tailBlockNext =>
      some { state with
        queue := { queue with tailBlock := tailBlockNext }
        producer := .returned mode true
        enqueued := state.enqueued ++ [element] }

/-- The next access of the consumer. -/
def consume : Option (State T) :=
  let queue := state.queue
  match state.consumer with
  | .idle | .returned _ => some state
  | .loadTailBlock => state.consumeTo (.loadFrontBlock queue.tailBlock)
  | .loadFrontBlock tailBlockAtStart =>
      state.consumeTo (.loadTail tailBlockAtStart queue.frontBlock)
  | .loadTail tailBlockAtStart frontBlock =>
      state.consumeTo (.loadFront tailBlockAtStart frontBlock (queue.block frontBlock).tail)
  | .loadFront tailBlockAtStart frontBlock blockTail =>
      let blockFront := (queue.block frontBlock).front
      if blockFront ≠ blockTail then state.consumeTo (.move frontBlock blockFront)
      else if frontBlock ≠ tailBlockAtStart then state.consumeTo (.loadNext frontBlock)
      else state.consumeTo (.returned none)
  | .loadNext frontBlock =>
      (queue.block frontBlock).next.map fun nextBlock =>
        state.consumeTo (.loadNextFront nextBlock)
  | .loadNextFront nextBlock =>
      state.consumeTo (.loadNextTail nextBlock (queue.block nextBlock).front)
  | .loadNextTail nextBlock nextBlockFront =>
      (state.consumeTo (.storeFrontBlock nextBlock nextBlockFront)).assert
        (nextBlockFront ≠ (queue.block nextBlock).tail)
  | .storeFrontBlock nextBlock nextBlockFront =>
      some { state with
        queue := { queue with frontBlock := nextBlock }
        consumer := .move nextBlock nextBlockFront }
  | .move frontBlock blockFront =>
      let element := (queue.block frontBlock).data blockFront
      some { state with
        consumer :=
          .storeFront frontBlock ((queue.block frontBlock).advance blockFront) element
        dequeued := state.dequeued ++ [element] }
  | .storeFront frontBlock blockFront element =>
      some { state with
        queue := queue.storeFront frontBlock blockFront
        consumer := .returned (some element) }

end State

inductive Event (T : Type) where
  /-- `enqueue` or `try_enqueue` -/
  | enqueue (mode : AllocationMode) (element : T)
  | tryDequeue
  | produce
  | consume

def Producer.Ready : Producer T → Prop
  | .idle | .returned _ _ => True
  | _ => False

def Consumer.Ready : Consumer T → Prop
  | .idle | .returned _ => True
  | _ => False

instance : (producer : Producer T) → Decidable producer.Ready
  | .idle | .returned _ _ => .isTrue trivial
  | .loadTailBlock _ _ | .loadFront _ _ _ | .loadTail _ _ _ _ | .construct _ _ _ _ _
  | .storeTail _ _ _ _ | .loadNext _ _ _ | .loadFrontBlock _ _ _ _ | .loadTailBlockNext _ _ _
  | .loadNextFront _ _ _ | .loadNextTail _ _ _ _ | .constructNext _ _ _ _
  | .storeNextTail _ _ _ _ | .newBlock _ _ _ | .constructNew _ _ _ _ | .storeNewTail _ _ _ _
  | .loadNextOfTail _ _ _ _ | .storeNewNext _ _ _ _ _ | .storeNext _ _ _ _
  | .storeTailBlock _ _ _ => .isFalse id

instance : (consumer : Consumer T) → Decidable consumer.Ready
  | .idle | .returned _ => .isTrue trivial
  | .loadTailBlock | .loadFrontBlock _ | .loadTail _ _ | .loadFront _ _ _ | .loadNext _
  | .loadNextFront _ | .loadNextTail _ _ | .storeFrontBlock _ _ | .move _ _
  | .storeFront _ _ _ => .isFalse id

def Enabled (state : State T) : Event T → Prop
  | .enqueue _ _ => state.producer.Ready
  | .tryDequeue => state.consumer.Ready
  | .produce => ¬ state.producer.Ready
  | .consume => ¬ state.consumer.Ready

def step (state : State T) : Event T → Option (State T)
  | .enqueue mode element => some (state.produceTo (.loadTailBlock mode element)).observe
  | .tryDequeue =>
      some { state with consumer := .loadTailBlock, wasEmpty := state.isEmpty }
  | .produce => state.produce.map State.observe
  | .consume => state.consume.map State.observe

structure Started (state : State T) : Prop where
  queue : ∃ memory maxSize, 0 < maxSize ∧ maxSize < 2 ^ 64 ∧
    state.queue = construct memory maxSize
  producer : state.producer = .idle
  consumer : state.consumer = .idle
  enqueued : state.enqueued = []
  dequeued : state.dequeued = []

def machine (T : Type) : Library.Machine (State T) (Event T) where
  Init := Started
  Enabled := Enabled
  step := step

instance (state : State T) : (event : Event T) → Decidable ((machine T).Enabled state event)
  | .enqueue _ _ => inferInstanceAs (Decidable state.producer.Ready)
  | .tryDequeue => inferInstanceAs (Decidable state.consumer.Ready)
  | .produce => inferInstanceAs (Decidable (¬ state.producer.Ready))
  | .consume => inferInstanceAs (Decidable (¬ state.consumer.Ready))

end MallocSurvey.ReaderWriterQueue
