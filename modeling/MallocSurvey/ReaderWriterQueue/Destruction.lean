import MallocSurvey.ReaderWriterQueue.Consuming
import MallocSurvey.ReaderWriterQueue.Producing
import Mathlib.Logic.Relation

/-! # First in, first out -/

namespace MallocSurvey.ReaderWriterQueue

open Library

variable {T : Type} {state next : State T} {event : Event T}

theorem arranged_construct (memory : Nat → Block T) {maxSize : Nat} (positive : 0 < maxSize)
    (bounded : maxSize < 2 ^ 64) :
    Arranged (construct memory maxSize) [0] [] (fun _ => []) (fun _ => []) := by
  have sized := sized_ceilToPow2 positive bounded
  have isFirst : (construct memory maxSize).block 0 =
      { memory 0 with
        front := 0
        tail := 0
        next := some 0
        size := ceilToPow2 ((maxSize + 1) % 2 ^ 64) } := by
    simp [construct, Queue.newBlock, Queue.storeNext, Queue.setBlock]
  exact
    { first := rfl
      last := rfl
      nodup := List.nodup_singleton 0
      links := by
        apply LinkRing.single
        rw [isFirst]
      made := by
        intro b member
        rw [List.mem_singleton.mp member]
        exact Nat.one_pos
      holds := by
        intro b member
        rw [List.mem_singleton.mp member, isFirst]
        exact ⟨sized, RingBuffer.empty (Nat.succ_pos _)⟩
      passed := fun b member apart => absurd (List.mem_singleton.mp member) apart
      spare := fun _ member => absurd member List.not_mem_nil
      sized := sized }

theorem held_started (started : Started state) : Held state := by
  obtain ⟨⟨memory, maxSize, positive, bounded, isQueue⟩, isProducer, isConsumer, enqueued,
    dequeued⟩ := started
  refine ⟨⟨[0], [], fun _ => [], ?_, ?_, ?_, ?_⟩, ?_⟩
  · rw [isQueue, isProducer]
    exact arranged_construct memory positive bounded
  · rw [enqueued, dequeued, isConsumer]
    rfl
  · rw [isProducer]
    trivial
  · rw [isConsumer]
    trivial
  · rw [isConsumer]
    exact fun running => absurd trivial running

/-- Every access keeps what is known of the ring, and no assertion fails. -/
theorem Held.step (held : Held state) (enabled : Enabled state event) :
    ∃ next, step state event = some next ∧ Held next := by
  obtain ⟨⟨full, rest, contents, inv⟩, observed⟩ := held
  cases event with
  | enqueue mode element =>
      refine ⟨_, rfl, Inv.observe (inv.produceTo ?_ trivial)⟩
      cases isProducer : state.producer with
      | idle | returned mode result => rfl
      | _ =>
          change state.producer.Ready at enabled
          rw [isProducer] at enabled
          exact enabled.elim
  | tryDequeue =>
      refine ⟨_, rfl, ⟨full, rest, contents, inv.arranged, ?_, inv.producer, trivial⟩,
        fun _ => id⟩
      have none : state.consumer.taken = 0 := by
        cases isConsumer : state.consumer with
        | idle | returned result => rfl
        | _ =>
            change state.consumer.Ready at enabled
            rw [isConsumer] at enabled
            exact enabled.elim
      have fifo := inv.fifo
      rw [none] at fifo
      exact fifo
  | produce =>
      obtain ⟨next, full, rest, contents, call, after⟩ := inv.produce enabled
      exact ⟨next.observe, congrArg (Option.map State.observe) call, after.observe⟩
  | consume =>
      obtain ⟨next, full, rest, contents, call, after⟩ := inv.consume enabled (observed enabled)
      exact ⟨next.observe, congrArg (Option.map State.observe) call, after.observe⟩

theorem held_of_reachable {allowed : State T → Event T → Prop}
    (reached : (machine T).Reachable allowed state) : Held state := by
  apply Machine.Reachable.invariant _ _ reached
  · exact fun _ started => held_started started
  · intro state event next held enabled _ result
    obtain ⟨other, call, after⟩ := held.step enabled
    change ReaderWriterQueue.step state event = some next at result
    rw [call] at result
    cases result
    exact after

/-- What holds of the queue between any two accesses. -/
structure Fifo (state : State T) : Prop where
  ordered : state.dequeued <+: state.enqueued
  /-- `try_dequeue` has returned false -/
  refused : state.consumer = .returned none → state.wasEmpty = true
  enqueued : ∀ result, state.producer = .returned .canAlloc result → result = true

/-- A queue for one number. -/
def start : State Nat where
  queue := construct (fun _ => ⟨0, 0, none, 0, fun _ => 0⟩) 1
  producer := .idle
  consumer := .idle
  enqueued := []
  dequeued := []
  wasEmpty := true

theorem start_reachable {allowed : State Nat → Event Nat → Prop} :
    (machine Nat).Reachable allowed start :=
  .init ⟨⟨_, 1, by decide, by decide, rfl⟩, rfl, rfl, rfl, rfl⟩

/-- The numbers are enqueued one after the other; `accesses` are done for each. -/
def enqueueAll : List (Nat × Nat) → List (Event Nat)
  | [] => []
  | (element, accesses) :: rest =>
      .enqueue .canAlloc element :: List.replicate accesses .produce ++ enqueueAll rest

end MallocSurvey.ReaderWriterQueue

/-! # The destructor

Its loop ends before the tail block. Only where the front block is the tail block does it
go all around the ring. -/

namespace MallocSurvey.ReaderWriterQueue

open Library

variable {T : Type}

/-- The elements of a block from one place on, whose destructors run. -/
def Block.destroyElements (block : Block T) : (steps i blockTail : Nat) → Option (List T)
  | 0, _, _ => none
  | steps + 1, i, blockTail =>
      if i ≠ blockTail then do
        let others ← block.destroyElements steps (block.advance i) blockTail
        return block.data i :: others
      else some []

/-- The loop of `~ReaderWriterQueue`: the elements that are destroyed and the blocks that are
deleted. There is no result where a deleted block is read. -/
def Queue.destroy (queue : Queue T) (tailBlock : Nat) :
    (steps : Nat) → Option Nat → List Nat → Option (List T × List Nat)
  | 0, _, _ => none
  | _, none, _ => none
  | steps + 1, some block, deleted => do
      if block ∈ deleted then none
      else
        let nextBlock := (queue.block block).next
        let blockFront := (queue.block block).front
        let blockTail := (queue.block block).tail
        let elements ← (queue.block block).destroyElements steps blockFront blockTail
        if nextBlock ≠ some tailBlock then
          let (others, deleted) ← queue.destroy tailBlock steps nextBlock (deleted ++ [block])
          return (elements ++ others, deleted)
        else return (elements, deleted ++ [block])

/-- The blocks of the circular list. -/
def Queue.InRing (queue : Queue T) : Nat → Prop :=
  Relation.ReflTransGen (fun b following => (queue.block b).next = some following)
    queue.frontBlock

/-- The destructor ends, and has destroyed the elements that were left and deleted the blocks,
all of them once. -/
def Released (state : State T) : Prop :=
  ∃ steps elements deleted,
    state.queue.destroy state.queue.tailBlock steps (some state.queue.frontBlock) [] =
        some (elements, deleted) ∧
      state.enqueued = state.dequeued ++ elements ∧
      deleted.Nodup ∧ ∀ b, b ∈ deleted ↔ state.queue.InRing b

variable {queue : Queue T} {state : State T} {block : Block T} {tailBlock b : Nat}
  {contents : Nat → List T}

theorem destroyElements_eq {elements : List T} (sized : Sized block.size) {front : Nat}
    (buffer : RingBuffer block.slots front block.tail block.data elements) {steps : Nat}
    (enough : elements.length < steps) :
    block.destroyElements steps front block.tail = some elements := by
  induction elements generalizing front steps with
  | nil =>
      cases steps with
      | zero => cases enough
      | succ steps =>
          have isTail : front = block.tail := buffer.front_eq_tail_iff.mpr rfl
          exact if_neg (not_not.mpr isTail)
  | cons element elements induction =>
      cases steps with
      | zero => cases enough
      | succ steps =>
          have notTail : front ≠ block.tail :=
            fun same => List.cons_ne_nil _ _ (buffer.front_eq_tail_iff.mp same)
          have onward := induction (buffer.pop rfl) (Nat.lt_of_succ_lt_succ enough)
          rw [Block.destroyElements, if_pos notTail, Block.advance_eq sized, onward,
            buffer.front_item rfl]
          rfl

/-- One round of the loop. -/
theorem destroy_succ {deleted : List Nat} {elements : List T} {steps : Nat}
    (fresh : b ∉ deleted) (holds : (queue.block b).Holds elements)
    (enough : elements.length < steps) :
    queue.destroy tailBlock (steps + 1) (some b) deleted =
      if (queue.block b).next ≠ some tailBlock then
        (queue.destroy tailBlock steps (queue.block b).next (deleted ++ [b])).map
          fun (others, deleted) => (elements ++ others, deleted)
      else some (elements, deleted ++ [b]) := by
  rw [Queue.destroy, if_neg fresh]
  dsimp only
  rw [destroyElements_eq holds.sized holds.buffer enough, Option.bind_eq_bind, Option.bind_some]
  split
  · cases queue.destroy tailBlock steps (queue.block b).next (deleted ++ [b]) <;> rfl
  · rfl

/-- The blocks of a chain that leads to the tail block. -/
theorem destroy_chain {more deleted : List Nat}
    (chain : (b :: (more ++ [tailBlock])).IsChain
      fun b following => (queue.block b).next = some following)
    (apart : tailBlock ∉ more) (nodup : (deleted ++ b :: more).Nodup)
    (holds : ∀ other ∈ b :: more, (queue.block other).Holds (contents other)) :
    ∃ bound, ∀ steps, bound ≤ steps →
      queue.destroy tailBlock steps (some b) deleted =
        some ((b :: more).flatMap contents, deleted ++ b :: more) := by
  have fresh : b ∉ deleted :=
    fun member => (List.disjoint_of_nodup_append nodup) member List.mem_cons_self
  induction more generalizing b deleted with
  | nil =>
      have isLast : (queue.block b).next = some tailBlock := (List.isChain_cons_cons.mp chain).1
      refine ⟨(contents b).length + 2, fun steps enough => ?_⟩
      obtain ⟨steps, rfl⟩ := Nat.exists_eq_add_of_le' (Nat.le_of_add_left_le enough)
      rw [destroy_succ fresh (holds b List.mem_cons_self) (by omega),
        if_neg (not_not.mpr isLast), List.flatMap_singleton]
  | cons following more induction =>
      rw [List.cons_append, List.isChain_cons_cons] at chain
      have notTail : (queue.block b).next ≠ some tailBlock := by
        rw [chain.1]
        intro same
        exact apart (Option.some.inj same ▸ List.mem_cons_self)
      have shape : deleted ++ b :: following :: more = deleted ++ [b] ++ following :: more := by
        rw [List.append_assoc, List.singleton_append]
      rw [shape] at nodup
      obtain ⟨bound, onward⟩ := induction chain.2 (fun member => apart (.tail _ member)) nodup
        (fun other member => holds other (.tail _ member))
        (fun member => (List.disjoint_of_nodup_append nodup) member List.mem_cons_self)
      refine ⟨bound + (contents b).length + 2, fun steps enough => ?_⟩
      obtain ⟨steps, rfl⟩ := Nat.exists_eq_add_of_le' (Nat.le_of_add_left_le enough)
      rw [destroy_succ fresh (holds b List.mem_cons_self) (by omega), if_pos notTail, chain.1,
        onward _ (by omega), shape]
      rfl

/-- The loop ends where it comes to the tail block. -/
theorem tailBlock_not_deleted {steps : Nat} {start : Option Nat} {deleted deleted' : List Nat}
    {elements : List T} (notTail : start ≠ some tailBlock) (notDeleted : tailBlock ∉ deleted)
    (result : queue.destroy tailBlock steps start deleted = some (elements, deleted')) :
    tailBlock ∉ deleted' := by
  induction steps generalizing start deleted elements with
  | zero => cases result
  | succ steps induction =>
      cases start with
      | none => cases result
      | some b =>
          have kept : tailBlock ∉ deleted ++ [b] := by
            intro member
            rcases List.mem_append.mp member with inside | isBlock
            · exact notDeleted inside
            · exact notTail (congrArg some (List.mem_singleton.mp isBlock).symm)
          rw [Queue.destroy] at result
          split at result
          · cases result
          · rw [Option.bind_eq_bind, Option.bind_eq_some_iff] at result
            obtain ⟨own, _, result⟩ := result
            split at result
            · next goesOn =>
                rw [Option.bind_eq_bind, Option.bind_eq_some_iff] at result
                obtain ⟨⟨others, after⟩, call, isResult⟩ := result
                cases isResult
                exact induction goesOn kept call
            · cases result
              exact kept

end MallocSurvey.ReaderWriterQueue
