import Mathlib.Data.List.Basic
import Mathlib.Order.Basic

/-! # Ascending enumerations of the places with a property -/

namespace MallocSurvey.Library

/-- The list has just the places with the property, in ascending order and once each. -/
structure Enumerates (Has : Nat → Prop) (places : List Nat) : Prop where
  ascending : places.Pairwise (· < ·)
  mem_iff : ∀ place, place ∈ places ↔ Has place

namespace Enumerates

variable {Has Other : Nat → Prop} {places front back : List Nat} {bound first : Nat}

theorem congr (same : ∀ place, Has place ↔ Other place) :
    Enumerates Has places ↔ Enumerates Other places := by
  have equal : Has = Other := funext fun place => propext (same place)
  rw [equal]

theorem nil_iff : Enumerates Has [] ↔ ∀ place, ¬ Has place := by
  constructor
  · intro enumerates place has
    cases (enumerates.mem_iff place).mpr has
  · intro none_has
    exact ⟨List.Pairwise.nil, fun place => iff_of_false List.not_mem_nil (none_has place)⟩

/-- Enumerations on both sides of a bound. -/
theorem append_iff (below : ∀ place ∈ front, place < bound)
    (above : ∀ place ∈ back, bound ≤ place) :
    Enumerates Has (front ++ back) ↔
      Enumerates (fun place => Has place ∧ place < bound) front ∧
        Enumerates (fun place => Has place ∧ bound ≤ place) back := by
  constructor
  · intro whole
    have ascending := List.pairwise_append.mp whole.ascending
    refine ⟨⟨ascending.1, fun place => ?_⟩, ascending.2.1, fun place => ?_⟩
    · rw [← whole.mem_iff, List.mem_append]
      constructor
      · exact fun inFront => ⟨.inl inFront, below place inFront⟩
      · rintro ⟨inFront | inBack, isBelow⟩
        · exact inFront
        · exact absurd (above place inBack) (Nat.not_le_of_lt isBelow)
    · rw [← whole.mem_iff, List.mem_append]
      constructor
      · exact fun inBack => ⟨.inr inBack, above place inBack⟩
      · rintro ⟨inFront | inBack, isAbove⟩
        · exact absurd isAbove (Nat.not_le_of_lt (below place inFront))
        · exact inBack
  · rintro ⟨inFront, inBack⟩
    refine ⟨List.pairwise_append.mpr ⟨inFront.ascending, inBack.ascending, ?_⟩, fun place => ?_⟩
    · intro left isLeft right isRight
      exact Nat.lt_of_lt_of_le (below left isLeft) (above right isRight)
    · rw [List.mem_append, inFront.mem_iff, inBack.mem_iff, ← and_or_left]
      exact and_iff_left (Nat.lt_or_ge place bound)

/-- The places are counted from another one. -/
theorem map_add_iff {offset : Nat} (above : ∀ place, Has place → offset ≤ place) :
    Enumerates Has (places.map (offset + ·)) ↔
      Enumerates (fun place => Has (offset + place)) places := by
  have mem_map : ∀ place, offset + place ∈ places.map (offset + ·) ↔ place ∈ places := by
    intro place
    rw [List.mem_map]
    constructor
    · rintro ⟨other, isOther, same⟩
      exact Nat.add_left_cancel same ▸ isOther
    · exact fun isPlace => ⟨place, isPlace, rfl⟩
  have ascends : (places.map (offset + ·)).Pairwise (· < ·) ↔ places.Pairwise (· < ·) := by
    rw [List.pairwise_map]
    simp only [Nat.add_lt_add_iff_left]
  constructor
  · intro shifted
    exact ⟨ascends.mp shifted.ascending, fun place =>
      (mem_map place).symm.trans (shifted.mem_iff _)⟩
  · intro plain
    refine ⟨ascends.mpr plain.ascending, fun place => ?_⟩
    constructor
    · intro member
      obtain ⟨other, isOther, rfl⟩ := List.mem_map.mp member
      exact (plain.mem_iff other).mp isOther
    · intro has
      obtain ⟨other, rfl⟩ := Nat.exists_eq_add_of_le (above place has)
      exact (mem_map other).mpr ((plain.mem_iff other).mpr has)

/-- The first place and an enumeration of some later places: no place is left out and none
comes twice. -/
theorem cons_iff {reach : Nat} {rest : List Nat} (has : Has first)
    (least : ∀ place, Has place → first ≤ place)
    (later : ∀ place ∈ rest, Has place ∧ reach < place)
    (head : ∀ place, Has place → reach < place → ∃ next, rest.head? = some next ∧ next ≤ place) :
    Enumerates Has (first :: rest) ↔
      first ≤ reach ∧ (∀ place, Has place → place ≤ first ∨ reach < place) ∧
        Enumerates (fun place => Has place ∧ reach < place) rest := by
  constructor
  · intro whole
    obtain ⟨before, ascending⟩ := List.pairwise_cons.mp whole.ascending
    have reached : ∀ place, Has place → place ≤ first ∨ reach < place := by
      intro place hasPlace
      rcases List.mem_cons.mp ((whole.mem_iff place).mpr hasPlace) with isFirst | isLater
      · exact .inl (Nat.le_of_eq isFirst)
      · exact .inr (later place isLater).2
    refine ⟨?_, reached, ascending, fun place => ⟨fun isLater => later place isLater, ?_⟩⟩
    · by_contra skipped
      obtain ⟨next, isHead, small⟩ := head first has (Nat.lt_of_not_le skipped)
      exact Nat.not_lt_of_le small (before next (List.mem_of_head? isHead))
    · rintro ⟨hasPlace, isLater⟩
      rcases List.mem_cons.mp ((whole.mem_iff place).mpr hasPlace) with isFirst | isRest
      · obtain ⟨next, isHead, small⟩ := head place hasPlace isLater
        have between := before next (List.mem_of_head? isHead)
        omega
      · exact isRest
  · rintro ⟨reached, noneBetween, inRest⟩
    refine ⟨List.pairwise_cons.mpr ⟨?_, inRest.ascending⟩, fun place => ?_⟩
    · intro place isRest
      exact Nat.lt_of_le_of_lt reached (later place isRest).2
    · rw [List.mem_cons, inRest.mem_iff]
      constructor
      · rintro (rfl | ⟨hasPlace, _⟩)
        · exact has
        · exact hasPlace
      · intro hasPlace
        rcases noneBetween place hasPlace with small | isLater
        · exact .inl (Nat.le_antisymm small (least place hasPlace))
        · exact .inr ⟨hasPlace, isLater⟩

end Enumerates

end MallocSurvey.Library
