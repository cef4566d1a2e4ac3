import Mathlib.Algebra.BigOperators.Group.Finset.Basic
import Mathlib.Algebra.Order.BigOperators.Group.Finset
import Mathlib.Algebra.Order.Group.Multiset

/-! # Shares of a conserved total

A finite family of holders, each with a share of some stock. When one holder's
state changes, the total changes by the difference of its shares; if the total
has no duplicates, every item has one holder. -/

namespace MallocSurvey.Library

variable {Holder State Item : Type}

theorem total_update [DecidableEq Holder] {Stock : Type} [AddCommMonoid Stock]
    {holders : Finset Holder} (states : Holder → State)
    (share : Holder → State → Stock) {holder : Holder} (member : holder ∈ holders)
    (state : State) :
    (∑ other ∈ holders, share other (Function.update states holder state other)) +
        share holder (states holder) =
      (∑ other ∈ holders, share other (states other)) + share holder state := by
  rw [← Finset.add_sum_erase holders _ member,
    ← Finset.add_sum_erase holders (fun other => share other (states other)) member,
    Function.update_self]
  have others : ∀ other ∈ holders.erase holder,
      share other (Function.update states holder state other) =
        share other (states other) := by
    intro other otherMem
    rw [Function.update_of_ne (Finset.ne_of_mem_erase otherMem)]
  rw [Finset.sum_congr rfl others]
  ac_rfl

theorem share_le_total {holders : Finset Holder} (share : Holder → Multiset Item)
    {holder : Holder} (member : holder ∈ holders) :
    share holder ≤ ∑ other ∈ holders, share other :=
  Finset.single_le_sum_of_canonicallyOrdered member

theorem holder_unique {holders : Finset Holder} {share : Holder → Multiset Item}
    (nodup : (∑ holder ∈ holders, share holder).Nodup) {item : Item}
    {left right : Holder} (leftMem : left ∈ holders) (rightMem : right ∈ holders)
    (inLeft : item ∈ share left) (inRight : item ∈ share right) : left = right := by
  classical
  by_contra different
  have split : share left + share right ≤ ∑ holder ∈ holders, share holder := by
    rw [← Finset.add_sum_erase holders _ leftMem]
    apply add_le_add (le_refl _)
    exact share_le_total share
      (Finset.mem_erase.mpr ⟨fun equal => different equal.symm, rightMem⟩)
  have disjoint := (Multiset.nodup_add.mp (Multiset.nodup_of_le split nodup)).2.2
  exact Multiset.disjoint_left.mp disjoint inLeft inRight

theorem nodup_sum_of_owner {holders : Finset Holder} {share : Holder → Multiset Item}
    (nodup : ∀ holder ∈ holders, (share holder).Nodup)
    (owner : ∀ left ∈ holders, ∀ right ∈ holders, ∀ item,
      item ∈ share left → item ∈ share right → left = right) :
    (∑ holder ∈ holders, share holder).Nodup := by
  classical
  induction holders using Finset.induction_on with
  | empty => simp
  | insert holder rest absent induction =>
      rw [Finset.sum_insert absent, Multiset.nodup_add]
      refine ⟨nodup holder (Finset.mem_insert_self ..), induction ?_ ?_, ?_⟩
      · intro other otherMem
        exact nodup other (Finset.mem_insert_of_mem otherMem)
      · intro left leftMem right rightMem
        exact owner left (Finset.mem_insert_of_mem leftMem) right
          (Finset.mem_insert_of_mem rightMem)
      · rw [Multiset.disjoint_left]
        intro item inShare inRest
        obtain ⟨other, otherMem, inOther⟩ := Multiset.mem_sum.mp inRest
        have same := owner holder (Finset.mem_insert_self ..) other
          (Finset.mem_insert_of_mem otherMem) item inShare inOther
        exact absent (same ▸ otherMem)

end MallocSurvey.Library
