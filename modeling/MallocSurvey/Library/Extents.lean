import MallocSurvey.Library.ByteMemory
import Mathlib.Data.List.Pairwise
import Mathlib.Data.List.Perm.Basic
import Mathlib.Order.Interval.Finset.Nat

/-! # Ranges of addresses

Extents that a system has cut its memory into stay pairwise apart when one of them
is cut again. -/

namespace MallocSurvey.Library

structure Extent where
  start : Nat
  length : Nat
deriving DecidableEq

namespace Extent

/-- There is no common address. -/
def Apart (left right : Extent) : Prop :=
  left.length = 0 ∨ right.length = 0 ∨
    Library.Apart left.start left.length right.start right.length

instance (left right : Extent) : Decidable (left.Apart right) :=
  inferInstanceAs (Decidable (_ ∨ _ ∨ _))

def Inside (inner outer : Extent) : Prop :=
  outer.start ≤ inner.start ∧ inner.start + inner.length ≤ outer.start + outer.length

instance (inner outer : Extent) : Decidable (inner.Inside outer) :=
  inferInstanceAs (Decidable (_ ∧ _))

theorem Apart.symm {left right : Extent} (apart : left.Apart right) : right.Apart left := by
  unfold Apart Library.Apart at *
  omega

theorem Apart.inside {left right inner : Extent} (apart : left.Apart right)
    (inside : inner.Inside left) : inner.Apart right := by
  unfold Apart Library.Apart Inside at *
  omega

/-- Parts of regions that are apart are apart. -/
theorem Apart.parts {left right inLeft inRight : Extent} (apart : left.Apart right)
    (leftInside : inLeft.Inside left) (rightInside : inRight.Inside right) :
    inLeft.Apart inRight :=
  ((apart.inside leftInside).symm.inside rightInside).symm

theorem Apart.ne {left right : Extent} (apart : left.Apart right)
    (nonempty : 0 < left.length) : left ≠ right := by
  intro equal
  subst equal
  unfold Apart Library.Apart at apart
  omega

theorem pairwise_perm {left right : List Extent} (perm : left.Perm right) :
    left.Pairwise Apart ↔ right.Pairwise Apart :=
  perm.pairwise_iff Apart.symm

/-- Two members of a list whose extents are pairwise apart. -/
theorem apart_of_map {Owner : Type} {extent : Owner → Extent} {owners : List Owner}
    (apart : (owners.map extent).Pairwise Apart) {left right : Owner}
    (leftMember : left ∈ owners) (rightMember : right ∈ owners) (different : left ≠ right) :
    (extent left).Apart (extent right) := by
  have : Std.Symm fun left right => (extent left).Apart (extent right) :=
    ⟨fun _ _ => Apart.symm⟩
  exact (List.pairwise_map.mp apart).forall leftMember rightMember different

/-- Cutting an extent in two. -/
theorem pairwise_split {start first second : Nat} {others : List Extent}
    (apart : (⟨start, first + second⟩ :: others).Pairwise Apart) :
    (⟨start, first⟩ :: ⟨start + first, second⟩ :: others).Pairwise Apart := by
  rw [List.pairwise_cons] at apart
  refine List.pairwise_cons.mpr ⟨?_, List.pairwise_cons.mpr ⟨?_, apart.2⟩⟩
  · intro other member
    rcases List.mem_cons.mp member with isSecond | member
    · exact isSecond ▸ .inr (.inr (.inl (Nat.le_refl _)))
    · exact (apart.1 other member).inside ⟨Nat.le_refl _, Nat.add_le_add_left (Nat.le_add_right _ _) _⟩
  · intro other member
    exact (apart.1 other member).inside ⟨Nat.le_add_right _ _, by
      show start + first + second ≤ start + (first + second)
      omega⟩

/-- Extents that are apart have no more room than the range they lie in. -/
theorem sum_length_le {low high : Nat} {extents : List Extent} (apart : extents.Pairwise Apart)
    (within : ∀ extent ∈ extents, low ≤ extent.start ∧ extent.start + extent.length ≤ high) :
    (extents.map Extent.length).sum ≤ high - low := by
  have covered : ∃ places ⊆ Finset.Ico low high, places.card = (extents.map Extent.length).sum ∧
      ∀ place ∈ places, ∃ extent ∈ extents,
        extent.start ≤ place ∧ place < extent.start + extent.length := by
    induction extents with
    | nil => exact ⟨∅, Finset.empty_subset _, rfl, fun _ member => by cases member⟩
    | cons first rest induction =>
        rw [List.pairwise_cons] at apart
        obtain ⟨places, subset, card, owners⟩ :=
          induction apart.2 fun extent member => within extent (List.mem_cons_of_mem _ member)
        have bounds := within first List.mem_cons_self
        have disjoint :
            Disjoint (Finset.Ico first.start (first.start + first.length)) places := by
          rw [Finset.disjoint_left]
          intro place inFirst inRest
          obtain ⟨other, isRest, above, below⟩ := owners place inRest
          have between := apart.1 other isRest
          rw [Finset.mem_Ico] at inFirst
          unfold Apart Library.Apart at between
          omega
        refine ⟨Finset.Ico first.start (first.start + first.length) ∪ places, ?_, ?_, ?_⟩
        · exact Finset.union_subset (Finset.Ico_subset_Ico bounds.1 bounds.2) subset
        · rw [Finset.card_union_of_disjoint disjoint, Nat.card_Ico, Nat.add_sub_cancel_left,
            card, List.map_cons, List.sum_cons]
        · intro place member
          rcases Finset.mem_union.mp member with inFirst | inRest
          · exact ⟨first, List.mem_cons_self, Finset.mem_Ico.mp inFirst⟩
          · obtain ⟨other, isRest, inside⟩ := owners place inRest
            exact ⟨other, List.mem_cons_of_mem _ isRest, inside⟩
  obtain ⟨places, subset, card, _⟩ := covered
  rw [← card, ← Nat.card_Ico]
  exact Finset.card_le_card subset

end Extent

end MallocSurvey.Library
