import MallocSurvey.ReaderWriterQueue.Invariant

/-! # The two threads between their accesses

What each of them knows of the ring stays true whatever the other one does. -/

namespace MallocSurvey.ReaderWriterQueue

open Library

variable {T : Type}

namespace Producer

/-- The element that lies in a block after the tail block. -/
def pending : Producer T → Nat → List T
  | .storeTailBlock _ element n => fun b => if b = n then [element] else []
  | _ => fun _ => []

/-- A new block that is not yet in the ring. -/
structure Aside (queue : Queue T) (ring : List Nat) (tailBlock newBlock : Nat)
    (elements : List T) : Prop where
  tail : tailBlock = queue.tailBlock
  fresh : newBlock ∉ ring
  made : newBlock < queue.constructed
  holds : (queue.block newBlock).Holds elements

/-- What the producer knows. -/
def Sound (queue : Queue T) (full rest : List Nat) (contents : Nat → List T) : Producer T → Prop
  | .idle | .loadTailBlock _ _ => True
  | .returned mode result => mode = .canAlloc → result = true
  | .loadFront _ _ tail | .loadNext _ _ tail | .newBlock _ _ tail => tail = queue.tailBlock
  | .loadTail _ _ tail blockFront =>
      tail = queue.tailBlock ∧ blockFront < (queue.block tail).slots ∧
        ∃ popped, (queue.block tail).front = (blockFront + popped) % (queue.block tail).slots ∧
          popped + (contents tail).length < (queue.block tail).slots
  | .construct _ _ tail blockTail nextBlockTail =>
      tail = queue.tailBlock ∧ blockTail = (queue.block tail).tail ∧
        nextBlockTail = ((queue.block tail).tail + 1) % (queue.block tail).slots ∧
        (contents tail).length + 1 < (queue.block tail).slots
  | .storeTail _ element tail nextBlockTail =>
      tail = queue.tailBlock ∧
        nextBlockTail = ((queue.block tail).tail + 1) % (queue.block tail).slots ∧
        (contents tail).length + 1 < (queue.block tail).slots ∧
        (queue.block tail).data (queue.block tail).tail = element
  | .loadFrontBlock _ _ tail next => tail = queue.tailBlock ∧ next = (queue.block tail).next
  | .loadTailBlockNext _ _ tail => tail = queue.tailBlock ∧ rest ≠ []
  | .loadNextFront _ _ n | .storeTailBlock _ _ n => rest.head? = some n
  | .loadNextTail _ _ n nextBlockFront =>
      rest.head? = some n ∧ nextBlockFront = (queue.block n).front
  | .constructNext _ _ n nextBlockTail =>
      rest.head? = some n ∧ nextBlockTail = (queue.block n).tail
  | .storeNextTail _ element n nextBlockTail =>
      rest.head? = some n ∧ nextBlockTail = (queue.block n).tail ∧
        (queue.block n).data (queue.block n).tail = element
  | .constructNew _ _ tail new =>
      Aside queue (full ++ rest) tail new [] ∧ (queue.block new).front = 0
  | .storeNewTail _ element tail new =>
      Aside queue (full ++ rest) tail new [] ∧ (queue.block new).front = 0 ∧
        (queue.block new).data 0 = element
  | .loadNextOfTail _ element tail new => Aside queue (full ++ rest) tail new [element]
  | .storeNewNext _ element tail new next =>
      Aside queue (full ++ rest) tail new [element] ∧ next = (queue.block tail).next
  | .storeNext _ element tail new =>
      Aside queue (full ++ rest) tail new [element] ∧
        (queue.block new).next = (queue.block tail).next

end Producer

namespace Consumer

/-- The elements that are moved out of the front block while it still shows them. -/
def taken : Consumer T → Nat
  | .storeFront _ _ _ => 1
  | _ => 0

/-- What the consumer knows since it has loaded the tail block. -/
def Started (queue : Queue T) (full : List Nat) (contents : Nat → List T) (wasEmpty : Bool)
    (tailBlockAtStart : Nat) : Prop :=
  tailBlockAtStart ∈ full ∧
    (tailBlockAtStart = queue.frontBlock →
      wasEmpty = true ∨ contents queue.frontBlock ≠ [])

/-- The front block is empty and there is a block after it. -/
def Passing (queue : Queue T) (full : List Nat) (contents : Nat → List T) (n : Nat) : Prop :=
  contents queue.frontBlock = [] ∧ full[1]? = some n

/-- What the consumer knows. -/
def Sound (queue : Queue T) (full : List Nat) (contents : Nat → List T) (wasEmpty : Bool) :
    Consumer T → Prop
  | .idle | .loadTailBlock => True
  | .returned result => result.isNone → wasEmpty = true
  | .loadFrontBlock tailBlockAtStart =>
      Consumer.Started queue full contents wasEmpty tailBlockAtStart
  | .loadTail tailBlockAtStart front =>
      front = queue.frontBlock ∧ Consumer.Started queue full contents wasEmpty tailBlockAtStart
  | .loadFront tailBlockAtStart front blockTail =>
      front = queue.frontBlock ∧
        ((queue.block front).front ≠ blockTail → contents front ≠ []) ∧
        ((queue.block front).front = blockTail →
          (tailBlockAtStart = front → wasEmpty = true) ∧
          (tailBlockAtStart ≠ front → ∃ n, Passing queue full contents n))
  | .loadNext front => front = queue.frontBlock ∧ ∃ n, Passing queue full contents n
  | .loadNextFront n => Passing queue full contents n
  | .loadNextTail n nextBlockFront | .storeFrontBlock n nextBlockFront =>
      Passing queue full contents n ∧ nextBlockFront = (queue.block n).front
  | .move front blockFront =>
      front = queue.frontBlock ∧ blockFront = (queue.block front).front ∧ contents front ≠ []
  | .storeFront front blockFront _ =>
      front = queue.frontBlock ∧
        blockFront = ((queue.block front).front + 1) % (queue.block front).slots ∧
        contents front ≠ []

end Consumer

structure Inv (state : State T) (full rest : List Nat) (contents : Nat → List T) : Prop where
  arranged : Arranged state.queue full rest contents state.producer.pending
  fifo : state.enqueued =
    state.dequeued ++ (full.flatMap contents).drop state.consumer.taken
  producer : state.producer.Sound state.queue full rest contents
  consumer : state.consumer.Sound state.queue full contents state.wasEmpty

structure Held (state : State T) : Prop where
  inv : ∃ full rest contents, Inv state full rest contents
  observed : ¬ state.consumer.Ready → state.isEmpty = true → state.wasEmpty = true

/-! ## What the other thread does -/

section Interference

variable {queue queue' : Queue T} {full full' rest rest' : List Nat}
  {contents contents' : Nat → List T} {wasEmpty wasEmpty' : Bool}

theorem Consumer.Passing.mono {n : Nat} (passing : Consumer.Passing queue full contents n)
    (sameFront : queue'.frontBlock = queue.frontBlock)
    (empty : 2 ≤ full.length → contents queue.frontBlock = [] →
      contents' queue.frontBlock = [])
    (longer : full <+: full') : Consumer.Passing queue' full' contents' n := by
  obtain ⟨isEmpty, second⟩ := passing
  obtain ⟨inside, _⟩ := List.getElem?_eq_some_iff.mp second
  refine ⟨?_, ?_⟩
  · rw [sameFront]
    exact empty (by omega) isEmpty
  · obtain ⟨behind, isLonger⟩ := longer
    rw [← isLonger, List.getElem?_append_left inside]
    exact second

theorem Consumer.Started.mono {tailBlockAtStart : Nat}
    (started : Consumer.Started queue full contents wasEmpty tailBlockAtStart)
    (sameFront : queue'.frontBlock = queue.frontBlock)
    (grows : contents queue.frontBlock ≠ [] → contents' queue.frontBlock ≠ [])
    (longer : full <+: full') (observed : wasEmpty = true → wasEmpty' = true) :
    Consumer.Started queue' full' contents' wasEmpty' tailBlockAtStart := by
  refine ⟨longer.subset started.1, ?_⟩
  rw [sameFront]
  intro isFront
  exact (started.2 isFront).imp observed grows

/-- The producer only adds elements, and none to a front block that others follow. -/
theorem Consumer.Sound.mono {consumer : Consumer T}
    (sound : consumer.Sound queue full contents wasEmpty)
    (sameFrontBlock : queue'.frontBlock = queue.frontBlock)
    (frontBlock_mem : queue.frontBlock ∈ full)
    (sameFront : ∀ b ∈ full, (queue'.block b).front = (queue.block b).front)
    (sameSize : ∀ b ∈ full, (queue'.block b).size = (queue.block b).size)
    (grows : contents queue.frontBlock ≠ [] → contents' queue.frontBlock ≠ [])
    (empty : 2 ≤ full.length → contents queue.frontBlock = [] →
      contents' queue.frontBlock = [])
    (longer : full <+: full') (observed : wasEmpty = true → wasEmpty' = true) :
    consumer.Sound queue' full' contents' wasEmpty' := by
  have passing : ∀ {n}, Consumer.Passing queue full contents n →
      Consumer.Passing queue' full' contents' n :=
    fun passing => passing.mono sameFrontBlock empty longer
  have started : ∀ {tailBlockAtStart},
      Consumer.Started queue full contents wasEmpty tailBlockAtStart →
        Consumer.Started queue' full' contents' wasEmpty' tailBlockAtStart :=
    fun started => started.mono sameFrontBlock grows longer observed
  have sameSecond : ∀ {n}, Consumer.Passing queue full contents n →
      (queue'.block n).front = (queue.block n).front :=
    fun passing => sameFront _ (List.mem_of_getElem? passing.2)
  cases consumer with
  | idle | loadTailBlock => trivial
  | returned result => exact fun isNone => observed (sound isNone)
  | loadFrontBlock tailBlockAtStart => exact started sound
  | loadTail tailBlockAtStart front =>
      exact ⟨sound.1.trans sameFrontBlock.symm, started sound.2⟩
  | loadFront tailBlockAtStart front blockTail =>
      obtain ⟨isFront, nonempty, isEmpty⟩ := sound
      subst isFront
      refine ⟨sameFrontBlock.symm, ?_, ?_⟩
      · rw [sameFront _ frontBlock_mem]
        exact fun apart => grows (nonempty apart)
      · rw [sameFront _ frontBlock_mem]
        intro same
        refine ⟨fun isStart => observed ((isEmpty same).1 isStart), fun apart => ?_⟩
        obtain ⟨n, isPassing⟩ := (isEmpty same).2 apart
        exact ⟨n, passing isPassing⟩
  | loadNext front =>
      obtain ⟨isFront, n, isPassing⟩ := sound
      exact ⟨isFront.trans sameFrontBlock.symm, n, passing isPassing⟩
  | loadNextFront n => exact passing sound
  | loadNextTail n nextBlockFront | storeFrontBlock n nextBlockFront =>
      exact ⟨passing sound.1, sound.2.trans (sameSecond sound.1).symm⟩
  | move front blockFront =>
      obtain ⟨isFront, isBlockFront, nonempty⟩ := sound
      subst isFront
      exact ⟨sameFrontBlock.symm, isBlockFront.trans (sameFront _ frontBlock_mem).symm,
        grows nonempty⟩
  | storeFront front blockFront element =>
      obtain ⟨isFront, isBlockFront, nonempty⟩ := sound
      subst isFront
      refine ⟨sameFrontBlock.symm, ?_, grows nonempty⟩
      rw [sameFront _ frontBlock_mem, Block.slots_eq_of_size (sameSize _ frontBlock_mem)]
      exact isBlockFront

theorem Producer.Aside.mono {tail new : Nat} {elements : List T}
    (aside : Producer.Aside queue (full ++ rest) tail new elements)
    (sameTailBlock : queue'.tailBlock = queue.tailBlock)
    (sameConstructed : queue'.constructed = queue.constructed)
    (sameAside : ∀ b ∉ full ++ rest, queue'.block b = queue.block b)
    (members : ∀ b, b ∈ full' ++ rest' ↔ b ∈ full ++ rest) :
    Producer.Aside queue' (full' ++ rest') tail new elements where
  tail := aside.tail.trans sameTailBlock.symm
  fresh := fun member => aside.fresh ((members new).mp member)
  made := by
    rw [sameConstructed]
    exact aside.made
  holds := by
    rw [sameAside new aside.fresh]
    exact aside.holds

/-- The consumer only removes elements, and puts passed blocks behind the empty ones. -/
theorem Producer.Sound.mono {producer : Producer T}
    (sound : producer.Sound queue full rest contents)
    (sameTailBlock : queue'.tailBlock = queue.tailBlock)
    (sameConstructed : queue'.constructed = queue.constructed)
    (sameTail : ∀ b, (queue'.block b).tail = (queue.block b).tail)
    (sameSize : ∀ b, (queue'.block b).size = (queue.block b).size)
    (sameData : ∀ b, (queue'.block b).data = (queue.block b).data)
    (sameNext : ∀ b, (queue'.block b).next = (queue.block b).next)
    (sameAside : ∀ b ∉ full ++ rest, queue'.block b = queue.block b)
    (sameFront : ∀ b ∈ rest, (queue'.block b).front = (queue.block b).front)
    (popped : ∃ popped, (queue'.block queue.tailBlock).front =
        ((queue.block queue.tailBlock).front + popped) % (queue.block queue.tailBlock).slots ∧
      popped + (contents' queue.tailBlock).length = (contents queue.tailBlock).length)
    (members : ∀ b, b ∈ full' ++ rest' ↔ b ∈ full ++ rest)
    (head : ∀ n, rest.head? = some n → rest'.head? = some n) :
    producer.Sound queue' full' rest' contents' := by
  have sameSlots : ∀ b, (queue'.block b).slots = (queue.block b).slots :=
    fun b => Block.slots_eq_of_size (sameSize b)
  have aside : ∀ {tail new elements}, Producer.Aside queue (full ++ rest) tail new elements →
      Producer.Aside queue' (full' ++ rest') tail new elements :=
    fun aside => aside.mono sameTailBlock sameConstructed sameAside members
  have isFront : ∀ {n}, rest.head? = some n → (queue'.block n).front = (queue.block n).front :=
    fun isHead => sameFront _ (List.mem_of_head? isHead)
  obtain ⟨count, moved, sum⟩ := popped
  cases producer with
  | idle | loadTailBlock _ _ => trivial
  | returned mode result => exact sound
  | loadFront _ _ tail | loadNext _ _ tail | newBlock _ _ tail =>
      exact sound.trans sameTailBlock.symm
  | loadTail mode element tail blockFront =>
      obtain ⟨isTail, inside, before, isMoved, bound⟩ := sound
      subst isTail
      refine ⟨sameTailBlock.symm, ?_, before + count, ?_, ?_⟩
      · rw [sameSlots]
        exact inside
      · rw [sameSlots, moved, isMoved, Nat.mod_add_mod, Nat.add_assoc]
      · rw [sameSlots]
        omega
  | construct mode element tail blockTail nextBlockTail =>
      obtain ⟨isTail, isBlockTail, isNext, bound⟩ := sound
      subst isTail
      refine ⟨sameTailBlock.symm, ?_, ?_, ?_⟩
      · rw [sameTail, isBlockTail]
      · rw [sameTail, sameSlots, isNext]
      · rw [sameSlots]
        omega
  | storeTail mode element tail nextBlockTail =>
      obtain ⟨isTail, isNext, bound, written⟩ := sound
      subst isTail
      refine ⟨sameTailBlock.symm, ?_, ?_, ?_⟩
      · rw [sameTail, sameSlots, isNext]
      · rw [sameSlots]
        omega
      · rw [sameData, sameTail, written]
  | loadFrontBlock mode element tail next =>
      refine ⟨sound.1.trans sameTailBlock.symm, ?_⟩
      rw [sameNext, sound.2]
  | loadTailBlockNext mode element tail =>
      obtain ⟨isTail, nonempty⟩ := sound
      obtain ⟨n, others, isRest⟩ := List.exists_cons_of_ne_nil nonempty
      refine ⟨isTail.trans sameTailBlock.symm, ?_⟩
      rintro isNil
      have isHead := head n (by rw [isRest]; rfl)
      rw [isNil] at isHead
      cases isHead
  | loadNextFront _ _ n | storeTailBlock _ _ n => exact head n sound
  | loadNextTail mode element n nextBlockFront =>
      refine ⟨head n sound.1, ?_⟩
      rw [isFront sound.1, sound.2]
  | constructNext mode element n nextBlockTail =>
      refine ⟨head n sound.1, ?_⟩
      rw [sameTail, sound.2]
  | storeNextTail mode element n nextBlockTail =>
      obtain ⟨isHead, isTail, written⟩ := sound
      refine ⟨head n isHead, ?_, ?_⟩
      · rw [sameTail, isTail]
      · rw [sameData, sameTail, written]
  | constructNew mode element tail new =>
      refine ⟨aside sound.1, ?_⟩
      rw [sameAside new sound.1.fresh, sound.2]
  | storeNewTail mode element tail new =>
      obtain ⟨isAside, isFirst, written⟩ := sound
      refine ⟨aside isAside, ?_, ?_⟩
      · rw [sameAside new isAside.fresh, isFirst]
      · rw [sameData, written]
  | loadNextOfTail mode element tail new => exact aside sound
  | storeNewNext mode element tail new next =>
      refine ⟨aside sound.1, ?_⟩
      rw [sameNext, sound.2]
  | storeNext mode element tail new =>
      refine ⟨aside sound.1, ?_⟩
      rw [sameNext, sameNext, sound.2]

end Interference

variable {state : State T} {full rest : List Nat} {contents : Nat → List T} {b : Nat}

namespace Inv

variable (inv : Inv state full rest contents)
include inv

/-- Only a block after the tail block has a pending element. -/
theorem pending_eq (member : b ∈ full) : state.producer.pending b = [] := by
  have sound := inv.producer
  cases isProducer : state.producer with
  | storeTailBlock mode element n =>
      rw [isProducer] at sound
      exact if_neg (inv.arranged.apart member (List.mem_of_head? sound))
  | _ => rfl

theorem frontHolds : (state.queue.block state.queue.frontBlock).Holds
    (contents state.queue.frontBlock) :=
  inv.arranged.holds _ (Arranged.mem_ring inv.arranged.frontBlock_mem)

theorem tailHolds : (state.queue.block state.queue.tailBlock).Holds
    (contents state.queue.tailBlock) :=
  inv.arranged.holds _ (Arranged.mem_ring inv.arranged.tailBlock_mem)

theorem observe : Held state.observe where
  inv := by
    refine ⟨full, rest, contents, inv.arranged, inv.fifo, inv.producer, ?_⟩
    apply inv.consumer.mono rfl inv.arranged.frontBlock_mem
    · exact fun _ _ => rfl
    · exact fun _ _ => rfl
    · exact id
    · exact fun _ => id
    · exact List.prefix_refl full
    · exact fun wasEmpty => by simp [State.observe, wasEmpty]
  observed := by
    intro _ isEmpty
    have same : state.isEmpty = true := isEmpty
    simp [State.observe, same]

end Inv

end MallocSurvey.ReaderWriterQueue
