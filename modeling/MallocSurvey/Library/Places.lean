import Mathlib.Data.List.Basic
import Mathlib.Logic.Function.Basic

/-! # Items in places

Each item that is held is in exactly one place. Items are put in empty places, taken
out, and moved. The entries of a ring between two counters are such places. -/

namespace MallocSurvey.Library

variable {Place Item : Type}

structure Placed (slots : Place → Option Item) (held : Item → Prop) : Prop where
  unique : ∀ left right item, slots left = some item → slots right = some item → left = right
  held_iff : ∀ item, held item ↔ ∃ place, slots place = some item

namespace Placed

variable {slots : Place → Option Item} {held : Item → Prop} {place target : Place} {item : Item}

theorem existsUnique (placed : Placed slots held) (isHeld : held item) :
    ∃! place, slots place = some item := by
  obtain ⟨place, isPlace⟩ := (placed.held_iff item).mp isHeld
  exact ⟨place, isPlace, fun other isOther => placed.unique other place item isOther isPlace⟩

theorem congr {changed : Place → Option Item} {other : Item → Prop} (placed : Placed slots held)
    (same : changed = slots) (sameItems : ∀ item, other item ↔ held item) :
    Placed changed other := by
  subst same
  exact ⟨placed.unique, fun item => (sameItems item).trans (placed.held_iff item)⟩

variable [DecidableEq Place]

/-- An item that is not held goes to an empty place. -/
theorem put (placed : Placed slots held) (empty : slots place = none) (fresh : ¬ held item) :
    Placed (Function.update slots place (some item)) fun other => other = item ∨ held other where
  unique := by
    intro left right other isLeft isRight
    have elsewhere : ∀ third, slots third ≠ some item :=
      fun third isThird => fresh ((placed.held_iff item).mpr ⟨third, isThird⟩)
    by_cases leftSame : left = place
    · subst leftSame
      rw [Function.update_self] at isLeft
      cases isLeft
      by_contra different
      rw [Function.update_of_ne (Ne.symm different)] at isRight
      exact elsewhere right isRight
    · rw [Function.update_of_ne leftSame] at isLeft
      by_cases rightSame : right = place
      · subst rightSame
        rw [Function.update_self] at isRight
        cases isRight
        exact absurd isLeft (elsewhere left)
      · rw [Function.update_of_ne rightSame] at isRight
        exact placed.unique left right other isLeft isRight
  held_iff := by
    intro other
    constructor
    · rintro (rfl | isHeld)
      · exact ⟨place, Function.update_self ..⟩
      · obtain ⟨third, isThird⟩ := (placed.held_iff other).mp isHeld
        have different : third ≠ place := by
          rintro rfl
          rw [empty] at isThird
          cases isThird
        exact ⟨third, (Function.update_of_ne different _ _).trans isThird⟩
    · rintro ⟨third, isThird⟩
      by_cases same : third = place
      · subst same
        rw [Function.update_self] at isThird
        cases isThird
        exact .inl rfl
      · rw [Function.update_of_ne same] at isThird
        exact .inr ((placed.held_iff other).mpr ⟨third, isThird⟩)

/-- What is in a place is taken out. -/
theorem take (placed : Placed slots held) (isPlace : slots place = some item) :
    Placed (Function.update slots place none) fun other => held other ∧ other ≠ item where
  unique := by
    have kept : ∀ third other, Function.update slots place none third = some other →
        slots third = some other := by
      intro third other isThird
      by_cases same : third = place
      · subst same
        rw [Function.update_self] at isThird
        cases isThird
      · rwa [Function.update_of_ne same] at isThird
    intro left right other isLeft isRight
    exact placed.unique left right other (kept left other isLeft) (kept right other isRight)
  held_iff := by
    intro other
    constructor
    · rintro ⟨isHeld, different⟩
      obtain ⟨third, isThird⟩ := (placed.held_iff other).mp isHeld
      have elsewhere : third ≠ place := by
        rintro rfl
        rw [isPlace] at isThird
        cases isThird
        exact different rfl
      exact ⟨third, (Function.update_of_ne elsewhere _ _).trans isThird⟩
    · rintro ⟨third, isThird⟩
      by_cases same : third = place
      · subst same
        rw [Function.update_self] at isThird
        cases isThird
      · rw [Function.update_of_ne same] at isThird
        refine ⟨(placed.held_iff other).mpr ⟨third, isThird⟩, ?_⟩
        rintro rfl
        exact same (placed.unique third place other isThird isPlace)

/-- What is in a place moves to an empty one. -/
theorem move (placed : Placed slots held) (isPlace : slots place = some item)
    (empty : slots target = none) :
    Placed (Function.update (Function.update slots place none) target (some item)) held := by
  have different : target ≠ place := by
    rintro rfl
    rw [isPlace] at empty
    cases empty
  have taken := placed.take isPlace
  have moved := @put _ _ _ _ target item _ taken ((Function.update_of_ne different _ _).trans empty)
    fun both => both.2 rfl
  refine ⟨moved.unique, fun other => Iff.trans ?_ (moved.held_iff other)⟩
  constructor
  · intro isHeld
    by_cases same : other = item
    · exact .inl same
    · exact .inr ⟨isHeld, same⟩
  · rintro (rfl | ⟨isHeld, _⟩)
    · exact (placed.held_iff other).mpr ⟨place, isPlace⟩
    · exact isHeld

end Placed

/-! ## Rings -/

/-- The entry of a ring at a position between two counters. -/
def ringAt (ring : Nat → Item) (capacity first last position : Nat) : Option Item :=
  if first ≤ position ∧ position < last then some (ring (position % capacity)) else none

variable {ring : Nat → Item} {capacity first last position : Nat} {item : Item}

theorem ringAt_first (nonempty : first < last) :
    ringAt ring capacity first last first = some (ring (first % capacity)) :=
  if_pos ⟨Nat.le_refl first, nonempty⟩

theorem ringAt_last : ringAt ring capacity first last last = none :=
  if_neg fun inside => Nat.lt_irrefl last inside.2

theorem mod_ne_of_lt {left right capacity : Nat} (below : left < right)
    (near : right < left + capacity) : left % capacity ≠ right % capacity := by
  intro same
  have difference : (right - left) % capacity = 0 := Nat.sub_mod_eq_zero_of_mod_eq same.symm
  rw [Nat.mod_eq_of_lt (by omega)] at difference
  omega

/-- An item goes behind the last entry of a ring that is not full. -/
theorem ringAt_push (ordered : first ≤ last) (room : last < first + capacity) :
    ringAt (Function.update ring (last % capacity) item) capacity first (last + 1) =
      Function.update (ringAt ring capacity first last) last (some item) := by
  funext position
  by_cases same : position = last
  · subst same
    rw [Function.update_self]
    refine (if_pos ⟨ordered, Nat.lt_succ_self position⟩).trans ?_
    rw [Function.update_self]
  · rw [Function.update_of_ne same]
    unfold ringAt
    by_cases inside : first ≤ position ∧ position < last
    · have other := @mod_ne_of_lt position last capacity inside.2 (by omega)
      rw [if_pos inside, if_pos ⟨inside.1, by omega⟩, Function.update_of_ne other]
    · rw [if_neg inside, if_neg fun within => inside ⟨within.1, by omega⟩]

/-- The first entry of a ring is dropped. -/
theorem ringAt_pop :
    ringAt ring capacity (first + 1) last =
      Function.update (ringAt ring capacity first last) first none := by
  funext position
  by_cases same : position = first
  · subst same
    rw [Function.update_self]
    exact if_neg fun inside => Nat.not_succ_le_self position inside.1
  · rw [Function.update_of_ne same]
    unfold ringAt
    have bounds : first + 1 ≤ position ∧ position < last ↔ first ≤ position ∧ position < last := by
      omega
    rw [if_congr bounds rfl rfl]

end MallocSurvey.Library
