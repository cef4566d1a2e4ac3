import MallocSurvey.ReaderWriterQueue.Threads

/-! # The accesses of the producer -/

namespace MallocSurvey.ReaderWriterQueue

open Library

variable {T : Type} {state : State T} {full rest : List Nat} {contents : Nat → List T}
  {mode : AllocationMode} {element : T} {tail new n : Nat}

theorem block_setBlock_self (queue : Queue T) (b : Nat) (block : Block T) :
    (queue.setBlock b block).block b = block :=
  Function.update_self ..

theorem block_setBlock_of_ne (queue : Queue T) {b other : Nat} (block : Block T)
    (apart : other ≠ b) : (queue.setBlock b block).block other = queue.block other :=
  Function.update_of_ne apart ..

theorem construct_fields (queue : Queue T) (b index other : Nat) (element : T) :
    ((queue.construct b index element).block other).front = (queue.block other).front ∧
      ((queue.construct b index element).block other).size = (queue.block other).size := by
  unfold Queue.construct
  by_cases same : other = b
  · rw [same, block_setBlock_self]
    exact ⟨rfl, rfl⟩
  · rw [block_setBlock_of_ne _ _ same]
    exact ⟨rfl, rfl⟩

theorem block_construct_self (queue : Queue T) (b index : Nat) (element : T) :
    ((queue.construct b index element).block b).tail = (queue.block b).tail ∧
      ((queue.construct b index element).block b).data index = element ∧
      ((queue.construct b index element).block b).slots = (queue.block b).slots := by
  refine ⟨?_, ?_, Block.slots_eq_of_size (construct_fields ..).2⟩
  · unfold Queue.construct
    rw [block_setBlock_self]
  · unfold Queue.construct
    rw [block_setBlock_self]
    exact Function.update_self ..

theorem storeTail_fields (queue : Queue T) (b tail other : Nat) :
    ((queue.storeTail b tail).block other).front = (queue.block other).front ∧
      ((queue.storeTail b tail).block other).size = (queue.block other).size := by
  unfold Queue.storeTail
  by_cases same : other = b
  · rw [same, block_setBlock_self]
    exact ⟨rfl, rfl⟩
  · rw [block_setBlock_of_ne _ _ same]
    exact ⟨rfl, rfl⟩

theorem Producer.Aside.write {queue : Queue T} {block : Block T} {ring : List Nat}
    {elements others : List T} (aside : Producer.Aside queue ring tail new elements)
    (sameSize : block.size = (queue.block new).size)
    (buffer : RingBuffer (queue.block new).slots block.front block.tail block.data others) :
    Producer.Aside (queue.setBlock new block) ring tail new others where
  tail := aside.tail
  fresh := aside.fresh
  made := aside.made
  holds := by
    rw [block_setBlock_self]
    exact aside.holds.rewrite sameSize buffer

namespace Inv

variable (inv : Inv state full rest contents)
include inv

/-- The producer only looks. -/
theorem produceTo {producer : Producer T} (samePending : producer.pending = state.producer.pending)
    (sound : producer.Sound state.queue full rest contents) :
    Inv (state.produceTo producer) full rest contents :=
  ⟨by rw [State.produceTo, samePending]; exact inv.arranged, inv.fifo, sound, inv.consumer⟩

/-- What is written is no front and no size, and shows nothing. -/
theorem write {queue : Queue T} {producer : Producer T}
    (arranged : Arranged queue full rest contents producer.pending)
    (sameFrontBlock : queue.frontBlock = state.queue.frontBlock)
    (sameFront : ∀ b ∈ full, (queue.block b).front = (state.queue.block b).front)
    (sameSize : ∀ b ∈ full, (queue.block b).size = (state.queue.block b).size)
    (sound : producer.Sound queue full rest contents) :
    Inv { state with queue := queue, producer := producer } full rest contents where
  arranged := arranged
  fifo := inv.fifo
  producer := sound
  consumer := inv.consumer.mono sameFrontBlock inv.arranged.frontBlock_mem sameFront sameSize id
    (fun _ => id) (List.prefix_refl full) id

theorem length_taken : state.consumer.taken ≤ (full.flatMap contents).length := by
  have sound := inv.consumer
  cases isConsumer : state.consumer with
  | storeFront front blockFront element =>
      rw [isConsumer] at sound
      obtain ⟨isFront, _, nonempty⟩ := sound
      obtain ⟨more, isFull⟩ := inv.arranged.full_cons
      have positive : 0 < (contents state.queue.frontBlock).length := by
        rw [← isFront]
        exact List.length_pos_iff.mpr nonempty
      rw [isFull, List.flatMap_cons, List.length_append]
      change 1 ≤ _
      omega
  | _ => exact Nat.zero_le _

/-- A block behind the tail block. -/
theorem restHolds (isHead : rest.head? = some n) : (state.queue.block n).Holds (contents n) :=
  inv.arranged.holds n (Arranged.rest_mem_ring isHead)

theorem rest_empty (isHead : rest.head? = some n) (none : state.producer.pending n = []) :
    contents n = [] :=
  (inv.arranged.spare n (List.mem_of_head? isHead)).trans none

theorem loadFront (isProducer : state.producer = .loadFront mode element tail) :
    Inv (state.produceTo (.loadTail mode element tail (state.queue.block tail).front))
      full rest contents := by
  have sound := inv.producer
  rw [isProducer] at sound
  have isTail : tail = state.queue.tailBlock := sound
  subst isTail
  have buffer := inv.tailHolds.buffer
  apply inv.produceTo
  · rw [isProducer]
    rfl
  · refine ⟨rfl, buffer.front_lt, 0, (Nat.mod_eq_of_lt buffer.front_lt).symm, ?_⟩
    rw [Nat.zero_add]
    exact buffer.room

theorem loadTail {blockFront : Nat}
    (isProducer : state.producer = .loadTail mode element tail blockFront)
    (apart : (state.queue.block tail).advance (state.queue.block tail).tail ≠ blockFront) :
    Inv (state.produceTo (.construct mode element tail (state.queue.block tail).tail
      ((state.queue.block tail).advance (state.queue.block tail).tail))) full rest contents := by
  have sound := inv.producer
  rw [isProducer] at sound
  obtain ⟨isTail, inside, popped, moved, bound⟩ := sound
  subst isTail
  have holds := inv.tailHolds
  rw [Block.advance_eq holds.sized] at apart ⊢
  have room := holds.buffer.room_of_stale inside moved bound apart
  apply inv.produceTo
  · rw [isProducer]
    rfl
  · exact ⟨rfl, rfl, rfl, by omega⟩

/-- An element is written at the tail of a block of the ring. -/
theorem construct {producer : Producer T} {b : Nat} (member : b ∈ full ++ rest)
    (samePending : producer.pending = state.producer.pending)
    (sound : producer.Sound
      (state.queue.construct b (state.queue.block b).tail element) full rest contents) :
    Inv { state with
      queue := state.queue.construct b (state.queue.block b).tail element
      producer := producer } full rest contents := by
  have holds := inv.arranged.holds b member
  refine inv.write ?_ rfl (fun other _ => (construct_fields ..).1)
    (fun other _ => (construct_fields ..).2) sound
  · rw [samePending]
    apply inv.arranged.write_same
    · rfl
    · apply holds.rewrite
      · rfl
      · exact holds.buffer.write

theorem storeTail {nextBlockTail : Nat}
    (isProducer : state.producer = .storeTail mode element tail nextBlockTail) :
    ∃ contents, Inv { state with
      queue := state.queue.storeTail tail nextBlockTail
      producer := .returned mode true
      enqueued := state.enqueued ++ [element] } full rest contents := by
  have sound := inv.producer
  rw [isProducer] at sound
  obtain ⟨isTail, isNext, room, written⟩ := sound
  subst isTail
  have holds := inv.tailHolds
  obtain ⟨init, isFull⟩ := inv.arranged.full_concat
  have pushed : ∀ b ∈ full, contents b ≠ [] →
      Function.update contents state.queue.tailBlock
        (contents state.queue.tailBlock ++ [element]) b ≠ [] := by
    intro b _ nonempty
    by_cases same : b = state.queue.tailBlock
    · subst same
      simp
    · rwa [Function.update_of_ne same]
  refine ⟨Function.update contents state.queue.tailBlock
    (contents state.queue.tailBlock ++ [element]), ?_, ?_, fun _ => rfl, ?_⟩
  · apply inv.arranged.write
    · rfl
    · refine holds.rewrite rfl ?_
      rw [isNext]
      exact holds.buffer.push room written
    · simp
    · intro other member
      rw [Function.update_of_ne (inv.arranged.apart inv.arranged.tailBlock_mem member).symm]
      have spare := inv.arranged.spare other member
      rw [isProducer] at spare
      exact spare
  · have others : init.flatMap (Function.update contents state.queue.tailBlock
        (contents state.queue.tailBlock ++ [element])) = init.flatMap contents := by
      have nodup := inv.arranged.full_nodup
      rw [isFull] at nodup
      apply List.flatMap_congr
      intro b member
      apply Function.update_of_ne
      rintro rfl
      exact (List.disjoint_of_nodup_append nodup) member List.mem_cons_self
    have after : full.flatMap (Function.update contents state.queue.tailBlock
        (contents state.queue.tailBlock ++ [element])) = full.flatMap contents ++ [element] := by
      rw [isFull, List.flatMap_append, List.flatMap_append, others, List.flatMap_singleton,
        List.flatMap_singleton, Function.update_self, List.append_assoc]
    rw [after, List.drop_append_of_le_length inv.length_taken, ← List.append_assoc, ← inv.fifo]
  · apply inv.consumer.mono _ inv.arranged.frontBlock_mem
    · exact fun other _ => (storeTail_fields ..).1
    · exact fun other _ => (storeTail_fields ..).2
    · exact pushed _ inv.arranged.frontBlock_mem
    · intro long empty
      rw [Function.update_of_ne, empty]
      intro same
      rw [inv.arranged.full_single same.symm] at long
      rw [List.length_singleton] at long
      omega
    · exact List.prefix_refl full
    · exact id
    · rfl

theorem loadTailBlockNext (isProducer : state.producer = .loadTailBlockNext mode element tail) :
    ∃ n, (state.queue.block tail).next = some n ∧
      Inv (state.produceTo (.loadNextFront mode element n)) full rest contents := by
  have sound := inv.producer
  rw [isProducer] at sound
  obtain ⟨isTail, nonempty⟩ := sound
  subst isTail
  obtain ⟨n, others, isRest⟩ := List.exists_cons_of_ne_nil nonempty
  have isHead : rest.head? = some n := by
    rw [isRest]
    rfl
  refine ⟨n, ?_, inv.produceTo ?_ isHead⟩
  · rw [inv.arranged.next_tailBlock, isHead]
    rfl
  · rw [isProducer]
    rfl

theorem storeNextTail {nextBlockTail : Nat}
    (isProducer : state.producer = .storeNextTail mode element n nextBlockTail) :
    ∃ contents, Inv { state with
      queue := state.queue.storeTail n ((state.queue.block n).advance nextBlockTail)
      producer := .storeTailBlock mode element n } full rest contents := by
  have sound := inv.producer
  rw [isProducer] at sound
  obtain ⟨isHead, isTail, written⟩ := sound
  subst isTail
  have holds := inv.restHolds isHead
  have empty : contents n = [] := by
    apply inv.rest_empty isHead
    rw [isProducer]
    rfl
  have member := List.mem_of_head? isHead
  have contents_eq : ∀ b ∈ full, Function.update contents n [element] b = contents b := by
    intro b inFull
    exact Function.update_of_ne (inv.arranged.apart inFull member) ..
  refine ⟨Function.update contents n [element], ?_, ?_, isHead, ?_⟩
  · apply inv.arranged.write
    · rfl
    · refine holds.rewrite rfl ?_
      have room : (contents n).length + 1 < (state.queue.block n).slots := by
        rw [empty]
        exact Block.two_le_slots holds.sized
      have pushed := holds.buffer.push room written
      rw [empty] at pushed
      rw [Block.advance_eq holds.sized]
      exact pushed
    · simp
    · intro other inRest
      have spare := inv.arranged.spare other inRest
      rw [isProducer] at spare
      change _ = if other = n then [element] else []
      rw [Function.update_apply, spare]
      rfl
  · have same : full.flatMap (Function.update contents n [element]) = full.flatMap contents :=
      List.flatMap_congr contents_eq
    rw [same]
    exact inv.fifo
  · apply inv.consumer.mono _ inv.arranged.frontBlock_mem
    · exact fun other _ => (storeTail_fields ..).1
    · exact fun other _ => (storeTail_fields ..).2
    · rw [contents_eq _ inv.arranged.frontBlock_mem]
      exact id
    · rw [contents_eq _ inv.arranged.frontBlock_mem]
      exact fun _ => id
    · exact List.prefix_refl full
    · exact id
    · rfl

theorem storeTailBlock (isProducer : state.producer = .storeTailBlock mode element n) :
    ∃ full rest, Inv { state with
      queue := { state.queue with tailBlock := n }
      producer := .returned mode true
      enqueued := state.enqueued ++ [element] } full rest contents := by
  have sound := inv.producer
  rw [isProducer] at sound
  have isHead : rest.head? = some n := sound
  obtain ⟨others, isRest⟩ := List.head?_eq_some_iff.mp isHead
  have spare := inv.arranged.spare
  rw [isProducer] at spare
  have isContents : contents n = [element] :=
    (spare n (List.mem_of_head? isHead)).trans (if_pos rfl)
  refine ⟨full ++ [n], others, ?_, ?_, fun _ => rfl, ?_⟩
  · apply inv.arranged.advanceTail isRest
    · rw [isContents]
      exact List.cons_ne_nil _ _
    · intro b member
      have apart : b ≠ n := by
        have nodup := (List.nodup_append.mp inv.arranged.nodup).2.1
        rw [isRest] at nodup
        rintro rfl
        exact (List.nodup_cons.mp nodup).1 member
      rw [spare b (by rw [isRest]; exact List.mem_cons_of_mem _ member)]
      exact if_neg apart
  · rw [List.flatMap_append, List.flatMap_singleton, isContents,
      List.drop_append_of_le_length inv.length_taken, ← List.append_assoc, ← inv.fifo]
  · apply inv.consumer.mono _ inv.arranged.frontBlock_mem
    · exact fun _ _ => rfl
    · exact fun _ _ => rfl
    · exact id
    · exact fun _ => id
    · exact List.prefix_append full [n]
    · exact id
    · rfl

/-- A block that is not in the ring is written. -/
theorem writeAside {queue : Queue T} {producer : Producer T}
    (samePending : producer.pending = state.producer.pending)
    (sameBlock : ∀ b ∈ full ++ rest, queue.block b = state.queue.block b)
    (more : state.queue.constructed ≤ queue.constructed)
    (sameFront : queue.frontBlock = state.queue.frontBlock)
    (sameTail : queue.tailBlock = state.queue.tailBlock) (sized : Sized queue.largestBlockSize)
    (sound : producer.Sound queue full rest contents) :
    Inv { state with queue := queue, producer := producer } full rest contents := by
  apply inv.write _ sameFront _ _ sound
  · rw [samePending]
    exact inv.arranged.aside sameBlock more sameFront sameTail sized
  · exact fun b member => by rw [sameBlock b (Arranged.mem_ring member)]
  · exact fun b member => by rw [sameBlock b (Arranged.mem_ring member)]

/-- The new block is written. -/
theorem writeNew {block : Block T} {producer : Producer T}
    (samePending : producer.pending = state.producer.pending) (fresh : new ∉ full ++ rest)
    (sound : producer.Sound (state.queue.setBlock new block) full rest contents) :
    Inv { state with queue := state.queue.setBlock new block, producer := producer }
      full rest contents := by
  refine inv.writeAside samePending ?_ (Nat.le_refl _) rfl rfl inv.arranged.sized sound
  intro b member
  apply block_setBlock_of_ne
  rintro rfl
  exact fresh member

theorem newBlock (isProducer : state.producer = .newBlock mode element tail) :
    Inv { state with
      queue := ({ state.queue with
        largestBlockSize := state.queue.largestBlockSize * 2 % 2 ^ 64 } : Queue T).newBlock
      producer := .constructNew mode element tail state.queue.constructed }
      full rest contents := by
  have sound := inv.producer
  rw [isProducer] at sound
  have isTail : tail = state.queue.tailBlock := sound
  have fresh : state.queue.constructed ∉ full ++ rest :=
    fun member => Nat.lt_irrefl _ (inv.arranged.made _ member)
  have doubled := inv.arranged.sized.double
  refine inv.writeAside ?_ ?_ (Nat.le_succ _) rfl rfl doubled ?_
  · rw [isProducer]
    rfl
  · intro b member
    apply Function.update_of_ne
    rintro rfl
    exact fresh member
  · have isNew : (({ state.queue with
        largestBlockSize := state.queue.largestBlockSize * 2 % 2 ^ 64 } : Queue T).newBlock).block
          state.queue.constructed =
        { state.queue.block state.queue.constructed with
          front := 0
          tail := 0
          next := none
          size := state.queue.largestBlockSize * 2 % 2 ^ 64 } := Function.update_self ..
    refine ⟨⟨isTail, fresh, Nat.lt_succ_self _, ?_, ?_⟩, ?_⟩
    · rw [isNew]
      exact doubled
    · rw [isNew]
      exact RingBuffer.empty (Nat.succ_pos _)
    · rw [isNew]

theorem constructNew (isProducer : state.producer = .constructNew mode element tail new) :
    Inv { state with
      queue := state.queue.construct new 0 element
      producer := .storeNewTail mode element tail new } full rest contents ∧
      ((state.queue.construct new 0 element).block new).front = 0 := by
  have sound := inv.producer
  rw [isProducer] at sound
  obtain ⟨aside, isFirst⟩ := sound
  have front_eq : ((state.queue.construct new 0 element).block new).front = 0 := by
    unfold Queue.construct
    rw [block_setBlock_self]
    exact isFirst
  refine ⟨inv.writeNew ?_ aside.fresh ⟨aside.write rfl ?_, front_eq, ?_⟩, front_eq⟩
  · rw [isProducer]
    rfl
  · -- the place of the element is the tail
    have isTail : (state.queue.block new).tail = 0 :=
      (aside.holds.buffer.front_eq_tail_iff.mpr rfl).symm.trans isFirst
    have written : RingBuffer _ _ _
        (Function.update (state.queue.block new).data (state.queue.block new).tail element) _ :=
      aside.holds.buffer.write
    rw [isTail] at written
    dsimp only
    rw [isTail]
    exact written
  · exact (block_construct_self state.queue new 0 element).2.1

theorem storeNewTail (isProducer : state.producer = .storeNewTail mode element tail new) :
    Inv { state with
      queue := state.queue.storeTail new 1
      producer := .loadNextOfTail mode element tail new } full rest contents := by
  have sound := inv.producer
  rw [isProducer] at sound
  obtain ⟨aside, isFirst, written⟩ := sound
  have isTail : (state.queue.block new).tail = 0 :=
    (aside.holds.buffer.front_eq_tail_iff.mpr rfl).symm.trans isFirst
  have two := Block.two_le_slots aside.holds.sized
  refine inv.writeNew ?_ aside.fresh (aside.write rfl ?_)
  · rw [isProducer]
    rfl
  · rw [← isTail] at written
    have pushed := aside.holds.buffer.push two written
    rw [isTail, Nat.zero_add, Nat.mod_eq_of_lt two] at pushed
    exact pushed

theorem storeNewNext {next : Option Nat}
    (isProducer : state.producer = .storeNewNext mode element tail new next) :
    Inv { state with
      queue := state.queue.storeNext new next
      producer := .storeNext mode element tail new } full rest contents := by
  have sound := inv.producer
  rw [isProducer] at sound
  obtain ⟨aside, isNext⟩ := sound
  have apart : tail ≠ new := by
    intro same
    rw [aside.tail] at same
    exact aside.fresh (same ▸ Arranged.mem_ring inv.arranged.tailBlock_mem)
  refine inv.writeNew ?_ aside.fresh ⟨aside.write rfl aside.holds.buffer, ?_⟩
  · rw [isProducer]
    rfl
  · rw [block_setBlock_of_ne _ _ apart, block_setBlock_self]
    exact isNext

theorem storeNext (isProducer : state.producer = .storeNext mode element tail new) :
    ∃ rest contents, Inv { state with
      queue := state.queue.storeNext tail (some new)
      producer := .storeTailBlock mode element new } full rest contents := by
  have sound := inv.producer
  rw [isProducer] at sound
  obtain ⟨aside, isNext⟩ := sound
  have isTail := aside.tail
  subst isTail
  have contents_eq : ∀ b ∈ full, Function.update contents new [element] b = contents b := by
    intro b member
    apply Function.update_of_ne
    rintro rfl
    exact aside.fresh (Arranged.mem_ring member)
  have sameFields : ∀ b, ((state.queue.storeNext state.queue.tailBlock (some new)).block b).front =
      (state.queue.block b).front ∧
        ((state.queue.storeNext state.queue.tailBlock (some new)).block b).size =
          (state.queue.block b).size := by
    intro b
    unfold Queue.storeNext
    by_cases same : b = state.queue.tailBlock
    · rw [same, block_setBlock_self]
      exact ⟨rfl, rfl⟩
    · rw [block_setBlock_of_ne _ _ same]
      exact ⟨rfl, rfl⟩
  refine ⟨new :: rest, Function.update contents new [element], ?_, ?_, rfl, ?_⟩
  · apply inv.arranged.link aside.fresh aside.made aside.holds isNext
    intro b member
    change _ = if b = new then [element] else []
    rw [Function.update_apply]
    split
    · rfl
    · next apart =>
        rcases List.mem_cons.mp member with same | inRest
        · exact absurd same apart
        · have spare := inv.arranged.spare b inRest
          rw [isProducer] at spare
          exact spare
  · have same : full.flatMap (Function.update contents new [element]) = full.flatMap contents :=
      List.flatMap_congr contents_eq
    rw [same]
    exact inv.fifo
  · apply inv.consumer.mono _ inv.arranged.frontBlock_mem
    · exact fun b _ => (sameFields b).1
    · exact fun b _ => (sameFields b).2
    · rw [contents_eq _ inv.arranged.frontBlock_mem]
      exact id
    · rw [contents_eq _ inv.arranged.frontBlock_mem]
      exact fun _ => id
    · exact List.prefix_refl full
    · exact id
    · rfl

/-- The next access of the producer, whose assertions hold. -/
theorem produce (running : ¬ state.producer.Ready) :
    ∃ next full rest contents, state.produce = some next ∧ Inv next full rest contents := by
  have sound := inv.producer
  unfold State.produce
  cases isProducer : state.producer with
  | idle | returned mode result =>
      rw [isProducer] at running
      exact absurd trivial running
  | loadTailBlock mode element =>
      refine ⟨_, _, _, _, rfl, inv.produceTo ?_ rfl⟩
      rw [isProducer]
      rfl
  | loadFront mode element tail => exact ⟨_, _, _, _, rfl, inv.loadFront isProducer⟩
  | loadTail mode element tail blockFront =>
      rw [isProducer] at sound
      dsimp only
      split
      · next apart => exact ⟨_, _, _, _, rfl, inv.loadTail isProducer apart⟩
      · refine ⟨_, _, _, _, rfl, inv.produceTo ?_ sound.1⟩
        rw [isProducer]
        rfl
  | construct mode element tail blockTail nextBlockTail =>
      rw [isProducer] at sound
      obtain ⟨isTail, isBlockTail, isNext, room⟩ := sound
      subst isTail
      subst isBlockTail
      refine ⟨_, _, _, _, rfl, inv.construct (Arranged.mem_ring inv.arranged.tailBlock_mem) ?_ ?_⟩
      · rw [isProducer]
        rfl
      · have isBlock := block_construct_self state.queue state.queue.tailBlock
          (state.queue.block state.queue.tailBlock).tail element
        refine ⟨rfl, ?_, ?_, ?_⟩
        · rw [isNext, isBlock.1, isBlock.2.2]
        · rw [isBlock.2.2]
          exact room
        · rw [isBlock.1]
          exact isBlock.2.1
  | storeTail mode element tail nextBlockTail =>
      obtain ⟨contents, stored⟩ := inv.storeTail isProducer
      exact ⟨_, _, _, _, rfl, stored⟩
  | loadNext mode element tail =>
      rw [isProducer] at sound
      refine ⟨_, _, _, _, rfl, inv.produceTo ?_ ⟨sound, rfl⟩⟩
      rw [isProducer]
      rfl
  | loadFrontBlock mode element tail next =>
      rw [isProducer] at sound
      obtain ⟨isTail, isNext⟩ := sound
      dsimp only
      split
      · next apart =>
          refine ⟨_, _, _, _, rfl, inv.produceTo ?_ ⟨isTail, ?_⟩⟩
          · rw [isProducer]
            rfl
          · rintro isNil
            apply apart
            rw [isNext, isTail, inv.arranged.next_tailBlock, isNil]
            rfl
      · cases mode with
        | canAlloc =>
            refine ⟨_, _, _, _, rfl, inv.produceTo ?_ isTail⟩
            rw [isProducer]
            rfl
        | cannotAlloc =>
            refine ⟨_, _, _, _, rfl, inv.produceTo ?_ nofun⟩
            rw [isProducer]
            rfl
  | loadTailBlockNext mode element tail =>
      obtain ⟨n, isNext, looked⟩ := inv.loadTailBlockNext isProducer
      dsimp only
      rw [isNext]
      exact ⟨_, _, _, _, rfl, looked⟩
  | loadNextFront mode element n =>
      rw [isProducer] at sound
      refine ⟨_, _, _, _, rfl, inv.produceTo ?_ ⟨sound, rfl⟩⟩
      rw [isProducer]
      rfl
  | loadNextTail mode element n nextBlockFront =>
      rw [isProducer] at sound
      obtain ⟨isHead, isFront⟩ := sound
      have empty : contents n = [] := by
        apply inv.rest_empty isHead
        rw [isProducer]
        rfl
      have asserted : nextBlockFront = (state.queue.block n).tail := by
        rw [isFront]
        exact (inv.restHolds isHead).buffer.front_eq_tail_iff.mpr empty
      refine ⟨_, _, _, _, if_pos asserted, inv.produceTo ?_ ⟨isHead, rfl⟩⟩
      rw [isProducer]
      rfl
  | constructNext mode element n nextBlockTail =>
      rw [isProducer] at sound
      obtain ⟨isHead, isTail⟩ := sound
      subst isTail
      refine ⟨_, _, _, _, rfl, inv.construct (Arranged.rest_mem_ring isHead) ?_ ?_⟩
      · rw [isProducer]
        rfl
      · have isBlock := block_construct_self state.queue n (state.queue.block n).tail element
        refine ⟨isHead, isBlock.1.symm, ?_⟩
        rw [isBlock.1]
        exact isBlock.2.1
  | storeNextTail mode element n nextBlockTail =>
      obtain ⟨contents, stored⟩ := inv.storeNextTail isProducer
      exact ⟨_, _, _, _, rfl, stored⟩
  | newBlock mode element tail => exact ⟨_, _, _, _, rfl, inv.newBlock isProducer⟩
  | constructNew mode element tail new =>
      obtain ⟨constructed, asserted⟩ := inv.constructNew isProducer
      exact ⟨_, _, _, _, if_pos asserted, constructed⟩
  | storeNewTail mode element tail new => exact ⟨_, _, _, _, rfl, inv.storeNewTail isProducer⟩
  | loadNextOfTail mode element tail new =>
      rw [isProducer] at sound
      refine ⟨_, _, _, _, rfl, inv.produceTo ?_ ⟨sound, rfl⟩⟩
      rw [isProducer]
      rfl
  | storeNewNext mode element tail new next =>
      exact ⟨_, _, _, _, rfl, inv.storeNewNext isProducer⟩
  | storeNext mode element tail new =>
      obtain ⟨rest, contents, linked⟩ := inv.storeNext isProducer
      exact ⟨_, _, _, _, rfl, linked⟩
  | storeTailBlock mode element n =>
      obtain ⟨full, rest, advanced⟩ := inv.storeTailBlock isProducer
      exact ⟨_, _, _, _, rfl, advanced⟩

end Inv

end MallocSurvey.ReaderWriterQueue
