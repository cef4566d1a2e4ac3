import MallocSurvey.ReaderWriterQueue.Threads

/-! # The accesses of the consumer -/

namespace MallocSurvey.ReaderWriterQueue

open Library

variable {T : Type} {state : State T} {full rest : List Nat} {contents : Nat → List T}

namespace Inv

variable (inv : Inv state full rest contents)
include inv

/-- The consumer only looks. -/
theorem consumeTo {consumer : Consumer T} (sameTaken : consumer.taken = state.consumer.taken)
    (sound : consumer.Sound state.queue full contents state.wasEmpty) :
    Inv (state.consumeTo consumer) full rest contents :=
  ⟨inv.arranged, by rw [State.consumeTo, sameTaken]; exact inv.fifo, inv.producer, sound⟩

theorem isEmpty_of_contents (none : state.consumer.taken = 0)
    (empty : full.flatMap contents = []) : state.isEmpty = true := by
  have fifo := inv.fifo
  rw [none, empty, List.drop_nil, List.append_nil] at fifo
  simp [State.isEmpty, fifo]

theorem second_of_ne {b : Nat} (member : b ∈ full) (apart : b ≠ state.queue.frontBlock) :
    ∃ n, full[1]? = some n := by
  obtain ⟨more, isFull⟩ := inv.arranged.full_cons
  rw [isFull] at member ⊢
  cases more with
  | nil => exact absurd (List.mem_singleton.mp member) apart
  | cons n more => exact ⟨n, rfl⟩

theorem second_passed {n : Nat} (second : full[1]? = some n) :
    n ∈ full ∧ n ≠ state.queue.frontBlock ∧ contents n ≠ [] := by
  obtain ⟨more, isFull⟩ := inv.arranged.full_cons
  have member := List.mem_of_getElem? second
  have nodup := inv.arranged.full_nodup
  have apart : n ≠ state.queue.frontBlock := by
    rw [isFull] at second nodup
    rintro rfl
    cases more with
    | nil => cases second
    | cons other more =>
        cases second
        exact (List.nodup_cons.mp nodup).1 List.mem_cons_self
  exact ⟨member, apart, inv.arranged.passed n member apart⟩

theorem loadTailBlock (isConsumer : state.consumer = .loadTailBlock)
    (observed : state.isEmpty = true → state.wasEmpty = true) :
    Inv (state.consumeTo (.loadFrontBlock state.queue.tailBlock)) full rest contents := by
  apply inv.consumeTo
  · rw [isConsumer]
    rfl
  · refine ⟨inv.arranged.tailBlock_mem, fun same => ?_⟩
    by_cases empty : contents state.queue.frontBlock = []
    · refine .inl (observed (inv.isEmpty_of_contents ?_ ?_))
      · rw [isConsumer]
        rfl
      · rw [inv.arranged.full_single same, List.flatMap_singleton, empty]
    · exact .inr empty

theorem loadFrontTail {tailBlockAtStart front : Nat}
    (isConsumer : state.consumer = .loadTail tailBlockAtStart front) :
    Inv (state.consumeTo (.loadFront tailBlockAtStart front (state.queue.block front).tail))
      full rest contents := by
  have sound := inv.consumer
  rw [isConsumer] at sound
  obtain ⟨isFront, member, started⟩ := sound
  subst isFront
  have front_eq := inv.frontHolds.buffer.front_eq_tail_iff
  apply inv.consumeTo
  · rw [isConsumer]
    rfl
  · refine ⟨rfl, fun apart empty => apart (front_eq.mpr empty), fun same => ⟨?_, ?_⟩⟩
    · intro isStart
      exact (started isStart).resolve_right (fun nonempty => nonempty (front_eq.mp same))
    · intro apart
      obtain ⟨n, second⟩ := inv.second_of_ne member apart
      exact ⟨n, front_eq.mp same, second⟩

/-- The consumer goes on to the next block. -/
theorem storeFrontBlock {n nextBlockFront : Nat}
    (isConsumer : state.consumer = .storeFrontBlock n nextBlockFront) :
    ∃ full rest, Inv { state with
      queue := { state.queue with frontBlock := n }
      consumer := .move n nextBlockFront } full rest contents := by
  have sound := inv.consumer
  rw [isConsumer] at sound
  obtain ⟨⟨empty, second⟩, isFront⟩ := sound
  obtain ⟨_, _, nonempty⟩ := inv.second_passed second
  obtain ⟨more, isFull, arranged⟩ := inv.arranged.advanceFront second empty
    (inv.pending_eq inv.arranged.frontBlock_mem)
  refine ⟨_, _, arranged, ?_, ?_, rfl, isFront, nonempty⟩
  · have fifo := inv.fifo
    rw [isConsumer, isFull, List.flatMap_cons, empty, List.nil_append] at fifo
    exact fifo
  · refine Producer.Sound.mono inv.producer rfl rfl (fun _ => rfl) (fun _ => rfl) (fun _ => rfl)
      (fun _ => rfl) (fun _ _ => rfl) (fun _ _ => rfl) ?_ ?_ ?_
    · exact ⟨0, (Nat.mod_eq_of_lt inv.tailHolds.buffer.front_lt).symm, Nat.zero_add _⟩
    · intro b
      rw [isFull]
      simp only [List.mem_append, List.mem_cons, List.not_mem_nil, or_false]
      constructor
      · rintro ((isN | inMore) | inRest | isFront)
        · exact .inl (.inr (.inl isN))
        · exact .inl (.inr (.inr inMore))
        · exact .inr inRest
        · exact .inl (.inl isFront)
      · rintro ((isFront | isN | inMore) | inRest)
        · exact .inr (.inr isFront)
        · exact .inl (.inl isN)
        · exact .inl (.inr inMore)
        · exact .inr (.inl inRest)
    · intro other isHead
      rw [List.head?_append, isHead]
      rfl

theorem move {front blockFront : Nat} (isConsumer : state.consumer = .move front blockFront) :
    Inv { state with
      consumer := .storeFront front ((state.queue.block front).advance blockFront)
        ((state.queue.block front).data blockFront)
      dequeued := state.dequeued ++ [(state.queue.block front).data blockFront] }
      full rest contents := by
  have sound := inv.consumer
  rw [isConsumer] at sound
  obtain ⟨isFront, isBlockFront, nonempty⟩ := sound
  subst isFront
  subst isBlockFront
  obtain ⟨element, elements, isContents⟩ := List.exists_cons_of_ne_nil nonempty
  obtain ⟨more, isFull⟩ := inv.arranged.full_cons
  refine ⟨inv.arranged, ?_, inv.producer, rfl, Block.advance_eq inv.frontHolds.sized _, nonempty⟩
  have fifo := inv.fifo
  rw [isConsumer, isFull, List.flatMap_cons, isContents] at fifo
  rw [inv.frontHolds.buffer.front_item isContents, isFull, List.flatMap_cons, isContents, fifo]
  simp [Consumer.taken]

theorem storeFront {front blockFront : Nat} {element : T}
    (isConsumer : state.consumer = .storeFront front blockFront element) :
    ∃ contents, Inv { state with
      queue := state.queue.storeFront front blockFront
      consumer := .returned (some element) } full rest contents := by
  have sound := inv.consumer
  rw [isConsumer] at sound
  obtain ⟨isFront, isBlockFront, nonempty⟩ := sound
  subst isFront
  obtain ⟨first, elements, isContents⟩ := List.exists_cons_of_ne_nil nonempty
  obtain ⟨more, isFull⟩ := inv.arranged.full_cons
  have frontHolds := inv.frontHolds
  have notInside : state.queue.frontBlock ∉ more := by
    have nodup := inv.arranged.full_nodup
    rw [isFull] at nodup
    exact (List.nodup_cons.mp nodup).1
  obtain ⟨after, isAfter⟩ :
      ∃ after, after = state.queue.storeFront state.queue.frontBlock blockFront := ⟨_, rfl⟩
  have stored : ∀ b, after.block b =
      if b = state.queue.frontBlock then
        { state.queue.block state.queue.frontBlock with front := blockFront }
      else state.queue.block b := by
    intro b
    rw [isAfter]
    exact Function.update_apply ..
  rw [← isAfter]
  refine ⟨Function.update contents state.queue.frontBlock elements, ?_, ?_, ?_, ?_⟩
  · rw [isAfter]
    apply inv.arranged.write
    · rfl
    · refine frontHolds.rewrite rfl ?_
      rw [isBlockFront]
      exact frontHolds.buffer.pop isContents
    · exact fun _ apart => absurd rfl apart
    · intro other member
      rw [Function.update_of_ne (inv.arranged.apart inv.arranged.frontBlock_mem member).symm]
      exact inv.arranged.spare other member
  · have fifo := inv.fifo
    rw [isConsumer, isFull, List.flatMap_cons, isContents] at fifo
    have others : more.flatMap (Function.update contents state.queue.frontBlock elements) =
        more.flatMap contents := by
      apply List.flatMap_congr
      intro b member
      apply Function.update_of_ne
      rintro rfl
      exact notInside member
    rw [isFull, List.flatMap_cons, Function.update_self, others]
    exact fifo
  · have sameFields : ∀ b, (after.block b).tail = (state.queue.block b).tail ∧
        (after.block b).size = (state.queue.block b).size ∧
        (after.block b).data = (state.queue.block b).data ∧
        (after.block b).next = (state.queue.block b).next := by
      intro b
      rw [stored]
      split
      · next same =>
          rw [same]
          exact ⟨rfl, rfl, rfl, rfl⟩
      · exact ⟨rfl, rfl, rfl, rfl⟩
    refine Producer.Sound.mono inv.producer (isAfter ▸ rfl) (isAfter ▸ rfl)
      (fun b => (sameFields b).1)
      (fun b => (sameFields b).2.1) (fun b => (sameFields b).2.2.1)
      (fun b => (sameFields b).2.2.2) ?_ ?_ ?_ (fun _ => Iff.rfl) (fun _ => id)
    · intro b outside
      rw [stored, if_neg]
      rintro rfl
      exact outside (Arranged.mem_ring inv.arranged.frontBlock_mem)
    · intro b member
      rw [stored, if_neg]
      exact (inv.arranged.apart inv.arranged.frontBlock_mem member).symm
    · rw [stored]
      by_cases same : state.queue.tailBlock = state.queue.frontBlock
      · refine ⟨1, ?_, ?_⟩
        · rw [if_pos same, isBlockFront, same]
        · rw [same, Function.update_self, isContents, List.length_cons, Nat.add_comm]
      · refine ⟨0, ?_, ?_⟩
        · rw [if_neg same]
          exact (Nat.mod_eq_of_lt inv.tailHolds.buffer.front_lt).symm
        · rw [Function.update_of_ne same, Nat.zero_add]
  · exact fun none => absurd none Bool.false_ne_true

/-- The next access of the consumer, whose assertion holds. -/
theorem consume (running : ¬ state.consumer.Ready)
    (observed : state.isEmpty = true → state.wasEmpty = true) :
    ∃ next full rest contents, state.consume = some next ∧ Inv next full rest contents := by
  have sound := inv.consumer
  unfold State.consume
  cases isConsumer : state.consumer with
  | idle | returned result =>
      rw [isConsumer] at running
      exact absurd trivial running
  | loadTailBlock => exact ⟨_, _, _, _, rfl, inv.loadTailBlock isConsumer observed⟩
  | loadFrontBlock tailBlockAtStart =>
      rw [isConsumer] at sound
      refine ⟨_, _, _, _, rfl, inv.consumeTo ?_ ⟨rfl, sound⟩⟩
      rw [isConsumer]
      rfl
  | loadTail tailBlockAtStart front => exact ⟨_, _, _, _, rfl, inv.loadFrontTail isConsumer⟩
  | loadFront tailBlockAtStart front blockTail =>
      rw [isConsumer] at sound
      obtain ⟨isFront, nonempty, empty⟩ := sound
      dsimp only
      split
      · next apart =>
          refine ⟨_, _, _, _, rfl, inv.consumeTo ?_ ⟨isFront, rfl, nonempty apart⟩⟩
          rw [isConsumer]
          rfl
      · next same =>
          have same := not_not.mp same
          split
          · next apart =>
              refine ⟨_, _, _, _, rfl,
                inv.consumeTo ?_ ⟨isFront, (empty same).2 (Ne.symm apart)⟩⟩
              rw [isConsumer]
              rfl
          · next isStart =>
              refine ⟨_, _, _, _, rfl,
                inv.consumeTo ?_ (fun _ => (empty same).1 (not_not.mp isStart).symm)⟩
              rw [isConsumer]
              rfl
  | loadNext front =>
      rw [isConsumer] at sound
      obtain ⟨isFront, n, passing⟩ := sound
      dsimp only
      rw [isFront, inv.arranged.next_frontBlock passing.2]
      refine ⟨_, _, _, _, rfl, inv.consumeTo ?_ passing⟩
      rw [isConsumer]
      rfl
  | loadNextFront n =>
      rw [isConsumer] at sound
      refine ⟨_, _, _, _, rfl, inv.consumeTo ?_ ⟨sound, rfl⟩⟩
      rw [isConsumer]
      rfl
  | loadNextTail n nextBlockFront =>
      rw [isConsumer] at sound
      obtain ⟨passing, isFront⟩ := sound
      obtain ⟨member, _, nonempty⟩ := inv.second_passed passing.2
      have holds := inv.arranged.holds n (Arranged.mem_ring member)
      have asserted : nextBlockFront ≠ (state.queue.block n).tail := by
        rw [isFront]
        exact fun same => nonempty (holds.buffer.front_eq_tail_iff.mp same)
      refine ⟨_, _, _, _, if_pos asserted, inv.consumeTo ?_ ⟨passing, isFront⟩⟩
      rw [isConsumer]
      rfl
  | storeFrontBlock n nextBlockFront =>
      obtain ⟨full, rest, advanced⟩ := inv.storeFrontBlock isConsumer
      exact ⟨_, _, _, _, rfl, advanced⟩
  | move front blockFront => exact ⟨_, _, _, _, rfl, inv.move isConsumer⟩
  | storeFront front blockFront element =>
      obtain ⟨contents, stored⟩ := inv.storeFront isConsumer
      exact ⟨_, _, _, _, rfl, stored⟩

end Inv

end MallocSurvey.ReaderWriterQueue
