import MallocSurvey.FcMalloc.Positions

/-! # A `bit_index` refines a set of positions -/

namespace MallocSurvey.FcMalloc

open Library

/-- A part of an index: itself, or a sub-index of any level below. -/
inductive Within {level : Nat} (part : BitIndex level) : {above : Nat} → BitIndex above → Prop
  | self : Within part part
  | sub {above : Nat} {baseIndex : BitVec 64} {subIndex : Fin 64 → BitIndex above}
      (subIdx : Fin 64) : Within part (subIndex subIdx) →
      Within part (.node baseIndex subIndex)

theorem Within.summarised {level above : Nat} {part : BitIndex level} {index : BitIndex above}
    (within : Within part index) (summarised : index.Summarised) : part.Summarised := by
  induction within with
  | self => exact summarised
  | sub subIdx _ induction => exact induction (summarised subIdx).1

/-- The index stands for a set. -/
structure Stands {level : Nat} (index : BitIndex level) (positions : Finset Nat) : Prop where
  summarised : index.Summarised
  contains : ∀ pos, index.Contains pos ↔ pos ∈ positions

namespace Stands

variable {level : Nat} {index : BitIndex level} {positions : Finset Nat}

theorem empty (level : Nat) : Stands (BitIndex.empty level) ∅ where
  summarised := (BitIndex.empty_spec level).1
  contains pos := by
    constructor
    · intro contains
      exact absurd contains ((BitIndex.empty_spec level).2 pos)
    · intro impossible
      exact absurd impossible (Finset.notMem_empty pos)

theorem isEmpty_iff (stands : Stands index positions) : index.IsEmpty ↔ positions = ∅ := by
  rw [Finset.eq_empty_iff_forall_notMem]
  exact forall_congr' fun pos => not_congr (stands.contains pos)

theorem get_eq (stands : Stands index positions) {pos : Nat} (inRange : pos < indexSize level) :
    index.get pos = some (decide (pos ∈ positions)) := by
  obtain ⟨isSet, result, iff⟩ := index.get_spec inRange
  rw [result]
  cases isSet with
  | false =>
      have isClear : pos ∉ positions := by
        rw [← stands.contains, ← iff]
        exact Bool.false_ne_true
      rw [decide_eq_false isClear]
  | true => rw [decide_eq_true ((stands.contains pos).mp (iff.mp rfl))]

/-- One operation does on the index what it does on the set. -/
theorem apply_eq (stands : Stands index positions) (operation : Operation)
    (inRange : operation.bit < indexSize level) :
    ∃ next, index.apply operation = some ((applySet positions operation).1, next) ∧
      Stands next (applySet positions operation).2 := by
  cases operation with
  | set bit =>
      change bit < indexSize level at inRange
      obtain ⟨next, result, summarised, iff⟩ := index.set_spec stands.summarised inRange
      refine ⟨next, ?_, summarised, fun pos => ?_⟩
      · change (index.set bit).bind _ = _
        rw [result]
        rfl
      · change _ ↔ pos ∈ insert bit positions
        rw [iff, stands.contains, Finset.mem_insert]
  | clear bit =>
      change bit < indexSize level at inRange
      obtain ⟨isEmpty, next, result, summarised, iff, emptyIff⟩ :=
        index.clear_spec stands.summarised inRange
      have nextStands : Stands next (positions.erase bit) := by
        refine ⟨summarised, fun pos => ?_⟩
        rw [iff, stands.contains, Finset.mem_erase]
      refine ⟨next, ?_, nextStands⟩
      change (index.clear bit).bind _ = _
      rw [result]
      change some (some isEmpty, next) = some (some (decide (positions.erase bit = ∅)), next)
      rw [nextStands.isEmpty_iff] at emptyIff
      cases isEmpty with
      | false => rw [decide_eq_false fun isEmpty => Bool.false_ne_true (emptyIff.mpr isEmpty)]
      | true => rw [decide_eq_true (emptyIff.mp rfl)]
  | get bit =>
      change bit < indexSize level at inRange
      refine ⟨index, ?_, stands⟩
      change (index.get bit).bind _ = _
      rw [stands.get_eq inRange]
      rfl

theorem run_eq (stands : Stands index positions) (operations : List Operation)
    (inRange : ∀ operation ∈ operations, operation.bit < indexSize level) :
    ∃ next, index.run operations = some ((runSet positions operations).1, next) ∧
      Stands next (runSet positions operations).2 := by
  induction operations generalizing index positions with
  | nil => exact ⟨index, rfl, stands⟩
  | cons operation rest induction =>
      obtain ⟨middle, first, middleStands⟩ :=
        stands.apply_eq operation (inRange operation List.mem_cons_self)
      obtain ⟨next, result, nextStands⟩ :=
        induction middleStands fun later isLater => inRange later (List.mem_cons_of_mem _ isLater)
      refine ⟨next, ?_, nextStands⟩
      unfold BitIndex.run
      rw [first]
      change (middle.run rest).bind _ = _
      rw [result]
      rfl

end Stands

/-- From the empty index every sequence of operations returns what it returns on a set.
Afterwards `get` is membership, the first set bit is the least member or the capacity,
the summaries of all levels are right, and `clear` of any part tells whether that part
has become empty. -/
theorem bitIndex_refines_set (level : Nat) (operations : List Operation)
    (inRange : ∀ operation ∈ operations, operation.bit < indexSize level) :
    ∃ index : BitIndex level,
      (BitIndex.empty level).run operations = some ((runSet ∅ operations).1, index) ∧
      (∀ pos < indexSize level,
        index.get pos = some (decide (pos ∈ (runSet ∅ operations).2))) ∧
      (∃ first, index.firstSetBit = some first ∧
        (first = indexSize level ∧ (runSet ∅ operations).2 = ∅ ∨
          first ∈ (runSet ∅ operations).2 ∧ ∀ pos ∈ (runSet ∅ operations).2, first ≤ pos)) ∧
      index.Summarised ∧
      (∀ {sub : Nat} (part : BitIndex sub), Within part index → ∀ pos < indexSize sub,
        ∃ isEmpty next, part.clear pos = some (isEmpty, next) ∧
          (isEmpty = true ↔ next.IsEmpty)) := by
  obtain ⟨index, result, stands⟩ := (Stands.empty level).run_eq operations inRange
  refine ⟨index, result, fun pos inIndex => stands.get_eq inIndex, ?_, stands.summarised, ?_⟩
  · obtain ⟨first, found, spec⟩ := index.firstSetBit_spec stands.summarised
    refine ⟨first, found, spec.imp ?_ ?_⟩
    · exact fun full => ⟨full.1, stands.isEmpty_iff.mp full.2⟩
    · exact fun least => ⟨(stands.contains first).mp least.1,
        fun pos isPos => least.2 pos ((stands.contains pos).mpr isPos)⟩
  · intro sub part within pos inPart
    obtain ⟨isEmpty, next, cleared, _, _, emptyIff⟩ :=
      part.clear_spec (within.summarised stands.summarised) inPart
    exact ⟨isEmpty, next, cleared, emptyIff⟩

/-- Two positions of a third-level index, one cleared again. -/
theorem bitIndex_refines_set_three :
    ∃ index : BitIndex 2,
      (BitIndex.empty 2).run [.set 70000, .set 5, .get 5, .clear 5] =
        some ([none, none, some true, some false], index) ∧
      index.firstSetBit = some 70000 := by
  have inRange : ∀ operation ∈ [Operation.set 70000, .set 5, .get 5, .clear 5],
      operation.bit < indexSize 2 := by decide
  obtain ⟨index, result, _, ⟨first, found, spec⟩, _⟩ := bitIndex_refines_set 2 _ inRange
  have positions : (runSet ∅ [.set 70000, .set 5, .get 5, .clear 5]).2 = {70000} := by decide
  refine ⟨index, result, ?_⟩
  rw [positions] at spec
  rcases spec with ⟨_, isEmpty⟩ | ⟨isFirst, _⟩
  · exact absurd isEmpty (by decide)
  · rw [found, Finset.mem_singleton.mp isFirst]

end MallocSurvey.FcMalloc
