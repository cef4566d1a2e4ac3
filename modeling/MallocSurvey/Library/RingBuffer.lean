import MallocSurvey.Library.Places

/-! # Ring buffers

The items from the front to the tail of a buffer that wastes one place, so that the two are
equal only where it is empty. -/

namespace MallocSurvey.Library

structure RingBuffer {Item : Type} (capacity front tail : Nat) (data : Nat → Item)
    (items : List Item) : Prop where
  front_lt : front < capacity
  room : items.length < capacity
  tail_eq : tail = (front + items.length) % capacity
  item_eq : ∀ (place : Nat) (below : place < items.length),
    data ((front + place) % capacity) = items[place]

namespace RingBuffer

variable {Item : Type} {capacity front tail : Nat} {data : Nat → Item} {item : Item}
  {items : List Item}

theorem empty (front_lt : front < capacity) :
    RingBuffer capacity front front data ([] : List Item) where
  front_lt := front_lt
  room := Nat.lt_of_le_of_lt (Nat.zero_le front) front_lt
  tail_eq := (Nat.mod_eq_of_lt front_lt).symm
  item_eq := fun place below => absurd below (Nat.not_lt_zero place)

variable (buffer : RingBuffer capacity front tail data items)
include buffer

theorem front_eq_tail_iff : front = tail ↔ items = [] := by
  rw [← List.length_eq_zero_iff]
  have same : front = front % capacity := (Nat.mod_eq_of_lt buffer.front_lt).symm
  constructor
  · intro equal
    by_contra nonempty
    have room := buffer.room
    have positive : 0 < items.length := Nat.pos_of_ne_zero nonempty
    have apart : front % capacity ≠ (front + items.length) % capacity :=
      mod_ne_of_lt (by omega) (by omega)
    rw [← buffer.tail_eq, ← same] at apart
    exact apart equal
  · intro isEmpty
    rw [buffer.tail_eq, isEmpty, Nat.add_zero]
    exact same

theorem front_item {rest : List Item} (isItems : items = item :: rest) : data front = item := by
  subst isItems
  have first := buffer.item_eq 0 (Nat.succ_pos _)
  rw [Nat.add_zero, Nat.mod_eq_of_lt buffer.front_lt] at first
  exact first

/-- What is written at the tail is not shown. -/
theorem write : RingBuffer capacity front tail (Function.update data tail item) items where
  front_lt := buffer.front_lt
  room := buffer.room
  tail_eq := buffer.tail_eq
  item_eq := by
    intro place below
    have room := buffer.room
    rw [Function.update_of_ne]
    · exact buffer.item_eq place below
    · rw [buffer.tail_eq]
      exact mod_ne_of_lt (by omega) (by omega)

/-- The tail moves over the item that is written there. -/
theorem push (room : items.length + 1 < capacity) (written : data tail = item) :
    RingBuffer capacity front ((tail + 1) % capacity) data (items ++ [item]) where
  front_lt := buffer.front_lt
  room := by
    rw [List.length_append]
    exact room
  tail_eq := by
    rw [buffer.tail_eq, Nat.mod_add_mod, List.length_append, List.length_singleton, Nat.add_assoc]
  item_eq := by
    intro place below
    rw [List.getElem_append]
    split
    · next inside => exact buffer.item_eq place inside
    · next outside =>
        rw [List.length_append, List.length_singleton] at below
        have isLast : place = items.length := by omega
        subst isLast
        rw [← buffer.tail_eq, written]
        simp

/-- The front moves over an item. -/
theorem pop {rest : List Item} (isItems : items = item :: rest) :
    RingBuffer capacity ((front + 1) % capacity) tail data rest := by
  subst isItems
  have shift : ∀ place, ((front + 1) % capacity + place) % capacity =
      (front + (place + 1)) % capacity := by
    intro place
    rw [Nat.mod_add_mod, Nat.add_assoc, Nat.add_comm 1]
  have room := buffer.room
  rw [List.length_cons] at room
  refine ⟨Nat.mod_lt _ (by omega), by omega, ?_, ?_⟩
  · rw [shift, buffer.tail_eq, List.length_cons]
  · intro place below
    rw [shift, buffer.item_eq (place + 1) (by rw [List.length_cons]; omega)]
    rfl

/-- A front that was read earlier still tells whether there is room. -/
theorem room_of_stale {old popped : Nat} (old_lt : old < capacity)
    (moved : front = (old + popped) % capacity) (bound : popped + items.length < capacity)
    (apart : (tail + 1) % capacity ≠ old) : popped + items.length + 1 < capacity := by
  by_contra full
  have isFull : popped + items.length + 1 = capacity := by omega
  apply apart
  have around : old + popped + (items.length + 1) = old + capacity := by omega
  rw [buffer.tail_eq, moved, Nat.mod_add_mod, Nat.add_assoc, Nat.mod_add_mod, around,
    Nat.add_mod_right]
  exact Nat.mod_eq_of_lt old_lt

end RingBuffer

end MallocSurvey.Library
