import Mathlib.Data.List.Basic
import Mathlib.Data.List.Perm.Basic

/-! # Filtering by moving the last element into each gap

An array loses the elements that fail a test. The last element takes the place of one that is
removed and is tested there, so the order changes but no element is moved twice for one gap. -/

namespace MallocSurvey.Library

variable {Item : Type}

/-- The elements that pass the test, in the places they end up in. -/
def fillGaps (kept : Item → Bool) : List Item → List Item
  | [] => []
  | first :: rest =>
      if kept first then first :: fillGaps kept rest
      else if some_ : rest = [] then []
      else fillGaps kept (rest.getLast some_ :: rest.dropLast)
termination_by items => items.length
decreasing_by
  · simp
  · have nonempty := List.length_pos_iff.mpr some_
    simp only [List.length_cons, List.length_dropLast]
    omega

variable {kept : Item → Bool}

theorem fillGaps_cons_pos {first : Item} (passes : kept first) (rest : List Item) :
    fillGaps kept (first :: rest) = first :: fillGaps kept rest := by
  rw [fillGaps, if_pos passes]

theorem fillGaps_single_neg {first : Item} (fails : kept first = false) :
    fillGaps kept [first] = [] := by
  rw [fillGaps, if_neg (by simp [fails]), dif_pos rfl]

theorem fillGaps_cons_snoc {first last : Item} (fails : kept first = false)
    (middle : List Item) :
    fillGaps kept (first :: (middle ++ [last])) = fillGaps kept (last :: middle) := by
  rw [fillGaps, if_neg (by simp [fails]), dif_neg (by simp)]
  simp

/-- Follows the steps of `fillGaps`. -/
theorem fillGaps_induction (kept : Item → Bool) {motive : List Item → Prop} (nil : motive [])
    (keep : ∀ first rest, kept first = true → motive rest → motive (first :: rest))
    (drop : ∀ first, kept first = false → motive [first])
    (fill : ∀ first middle last, kept first = false → motive (last :: middle) →
      motive (first :: (middle ++ [last]))) (items : List Item) : motive items := by
  induction items using fillGaps.induct kept with
  | case1 => exact nil
  | case2 first rest passes induction => exact keep first rest passes induction
  | case3 first fails => exact drop first (by simpa using fails)
  | case4 first rest fails some_ induction =>
      rw [← List.dropLast_append_getLast some_]
      exact fill first rest.dropLast (rest.getLast some_) (by simpa using fails) induction

theorem fillGaps_perm (items : List Item) : (fillGaps kept items).Perm (items.filter kept) := by
  induction items using fillGaps_induction kept with
  | nil => rw [fillGaps, List.filter_nil]
  | keep first rest passes induction =>
      rw [fillGaps_cons_pos passes, List.filter_cons_of_pos passes]
      exact induction.cons first
  | drop first fails => simp [fillGaps_single_neg fails, fails]
  | fill first middle last fails induction =>
      rw [fillGaps_cons_snoc fails, List.filter_cons_of_neg (by simp [fails])]
      exact induction.trans ((List.perm_append_singleton last middle).symm.filter kept)

/-- An element that passes the test comes early enough to be found. -/
theorem find?_drop_append {front : List Item} {count : Nat}
    (enough : count < (front.filter kept).length) (back : List Item) :
    ((front ++ back).drop count).find? kept = (front.drop count).find? kept := by
  have shorter := List.length_filter_le kept front
  rw [List.drop_append_of_le_length (by omega), List.find?_append]
  have found : ((front.drop count).find? kept).isSome := by
    rw [List.find?_isSome]
    by_contra none_
    push Not at none_
    have split : (front.filter kept).length =
        ((front.take count).filter kept).length + ((front.drop count).filter kept).length := by
      rw [← List.length_append, ← List.filter_append, List.take_append_drop]
    have noneBehind : (front.drop count).filter kept = [] := by
      rw [List.filter_eq_nil_iff]
      exact fun item member passes => none_ item member passes
    have inFront := List.length_filter_le kept (front.take count)
    rw [noneBehind, List.length_nil] at split
    rw [List.length_take] at inFront
    omega
  obtain ⟨item, isItem⟩ := Option.isSome_iff_exists.mp found
  rw [isItem, Option.some_or]

theorem find?_move {last : Item} {middle : List Item}
    (single : ((last :: middle).filter kept).length - 1 = 0) :
    (last :: middle).find? kept = (middle.find? kept).or ([last].find? kept) := by
  cases passes : kept last with
  | true =>
      rw [List.filter_cons_of_pos passes, List.length_cons, Nat.add_sub_cancel,
        List.length_eq_zero_iff, List.filter_eq_nil_iff] at single
      rw [List.find?_cons_of_pos passes, List.find?_cons_of_pos passes,
        List.find?_eq_none.mpr single, Option.none_or]
  | false =>
      rw [List.find?_cons_of_neg (by simp [passes]), List.find?_cons_of_neg (by simp [passes]),
        List.find?_nil, Option.or_none]

/-- The last element afterwards is the first one that passes the test at or behind the place
that it ends up in. -/
theorem fillGaps_getLast? (items : List Item) :
    (fillGaps kept items).getLast? =
      (items.drop ((items.filter kept).length - 1)).find? kept := by
  induction items using fillGaps_induction kept with
  | nil => rw [fillGaps, List.getLast?_nil, List.drop_nil, List.find?_nil]
  | keep first rest passes induction =>
      have length := (@fillGaps_perm _ kept rest).length_eq
      rw [fillGaps_cons_pos passes, List.filter_cons_of_pos passes, List.length_cons,
        Nat.add_sub_cancel]
      cases isRest : fillGaps kept rest with
      | nil =>
          rw [isRest, List.length_nil] at length
          rw [← length, List.drop_zero, List.find?_cons_of_pos passes, List.getLast?_singleton]
      | cons second others =>
          rw [isRest, List.length_cons] at length
          rw [List.getLast?_cons_cons, ← isRest, induction, ← length, Nat.add_sub_cancel,
            List.drop_succ_cons]
  | drop first fails => simp [fillGaps_single_neg fails, fails]
  | fill first middle last fails induction =>
      have same : ((last :: middle).filter kept).length =
          ((first :: (middle ++ [last])).filter kept).length := by
        rw [List.filter_cons_of_neg (a := first) (by simp [fails])]
        exact ((List.perm_append_singleton last middle).symm.filter kept).length_eq
      rw [fillGaps_cons_snoc fails, induction, ← same]
      cases place : ((last :: middle).filter kept).length - 1 with
      | zero =>
          rw [List.drop_zero, List.drop_zero, List.find?_cons_of_neg (a := first) (by simp [fails]),
            List.find?_append]
          exact find?_move place
      | succ count =>
          rw [List.drop_succ_cons, List.drop_succ_cons, find?_drop_append]
          have longer := (@List.filter_cons _ last middle kept) ▸ place
          split at longer
          · rw [List.length_cons] at longer
            omega
          · omega

end MallocSurvey.Library
