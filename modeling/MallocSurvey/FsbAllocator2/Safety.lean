import MallocSurvey.FsbAllocator2.Swept

/-! # `cleanSweep` in whole runs -/

namespace MallocSurvey.FsbAllocator2

open Library FsbAllocator

variable {elemSize unusedValue : Nat} {allocator : ElemAllocator2}
  {live chain front : List Nat} {back carved : Nat} {state : State}

/-- A unit that has been handed out and not been linked since. -/
structure Allocated (elemSize : Nat) (allocator : ElemAllocator2) (unit : Nat) : Prop where
  held : ∃ front back, allocator.ptrs = front ++ [back] ∧
    (unit ∈ front.flatMap (unitsOf elemSize) ∨
      unit ∈ unitsOf elemSize back ∧ unit < back + allocator.headIndex)
  notFree : ∀ chain, Linked id allocator.memory chain → allocator.freeList = chain.headD 0 →
    unit ∉ chain

def OnlyAllocates (_ : State) (event : Event) : Prop := ∃ answer, event = .allocate answer

/-- `cleanSweep` ends, the live elements stay and are counted, and no sequence of calls of
`allocate` gets one of their units again. -/
def SweepsSafely (elemSize unusedValue : Nat) (state : State) : Prop :=
  ∃ next, state.allocator.cleanSweep elemSize unusedValue = some next ∧
    (∀ unit ∈ state.live, Allocated elemSize next unit ∧
      ∀ offset < elemSizeInDSize elemSize,
        next.memory (unit + offset) = state.allocator.memory (unit + offset)) ∧
    next.allocatedElementsAmount = state.live.length ∧
    ∀ later, (machine elemSize).Leads OnlyAllocates ⟨next, state.live⟩ later →
      (machine elemSize).Safe OnlyAllocates later ∧
        later.live.Pairwise fun left right =>
          Apart left (elemSizeInDSize elemSize) right (elemSizeInDSize elemSize)

theorem linked_unique {memory : Words} {other : List Nat} (linked : Linked id memory chain)
    (otherLinked : Linked id memory other) (same : chain.headD 0 = other.headD 0) :
    chain = other := by
  induction chain generalizing other with
  | nil =>
      cases other with
      | nil => rfl
      | cons first rest => exact absurd same.symm otherLinked.1
  | cons first rest induction =>
      cases other with
      | nil => exact absurd same linked.1
      | cons second others =>
          have isFirst : first = second := same
          subst isFirst
          rw [induction linked.2.2 otherLinked.2.2 (linked.2.1.symm.trans otherLinked.2.1)]

theorem Rep.allocated (rep : Rep elemSize allocator live chain front back carved)
    (word : 0 < elemSize) {unit : Nat} (isLive : unit ∈ live) :
    Allocated elemSize allocator unit := by
  refine ⟨⟨front, back, rep.ptrs, ?_⟩, ?_⟩
  · have isCarved := rep.units.mem_iff.mp (List.mem_append_right chain isLive)
    rcases List.mem_append.mp isCarved with inFront | inBack
    · exact .inl inFront
    · right
      obtain ⟨index, below, isUnit⟩ := mem_run.mp inBack
      have shorter := Nat.mul_lt_mul_of_pos_right below (elemSizeInDSize_pos word)
      rw [rep.headIndex]
      have bound := rep.bound
      exact ⟨mem_unitsOf.mpr ⟨index, by omega, isUnit⟩, by omega⟩
  · intro other linked isFirst isFree
    rw [linked_unique linked rep.linked (isFirst.symm.trans rep.freeList)] at isFree
    exact rep.disjoint word isFree isLive

theorem Inv.pairwise (inv : Inv elemSize state) (word : 0 < elemSize) :
    state.live.Pairwise fun left right =>
      Apart left (elemSizeInDSize elemSize) right (elemSizeInDSize elemSize) := by
  obtain ⟨chain, front, back, carved, rep⟩ := inv.rep
  exact rep.live_apart word

theorem Inv.leads (inv : Inv elemSize state) (word : 0 < elemSize) {later : State}
    (leads : (machine elemSize).Leads OnlyAllocates state later) : Inv elemSize later := by
  apply leads.invariant _ inv
  intro state event next inv enabled _ result
  obtain ⟨other, isOther, newInv⟩ := inv_step inv word enabled
  cases result.symm.trans isOther
  exact newInv

theorem Inv.sweepsSafely_iff (inv : Inv elemSize state) (word : 0 < elemSize)
    (unmarked : ∀ unit ∈ state.live, state.allocator.memory unit ≠ unusedValue) :
    SweepsSafely elemSize unusedValue state ↔
      state.allocator.allocatedElementsAmount =
        keptUnits elemSize state.live state.allocator.ptrs := by
  obtain ⟨⟨chain, front, back, carved, rep⟩, counted, small⟩ := inv
  obtain ⟨memory, newFront, newBack, top, isPrepared⟩ := prepared rep word unmarked
  have nodup := (List.nodup_append.mp (rep.nodup word)).2.1
  have length := isPrepared.refreed_length word nodup
  have outcome := sweep_clean isPrepared word nodup small
  constructor
  · rintro ⟨next, result, _, amount, _⟩
    by_cases fewer : refreed elemSize state.live newFront newBack top = [] ∨
        (refreed elemSize state.live newFront newBack top).length <
          state.allocator.allocatedElementsAmount
    · obtain ⟨other, otherChain, isOther, _, isAmount, _⟩ := outcome fewer
      cases result.symm.trans isOther
      rcases fewer with isNil | fewer
      · rw [isNil, List.length_nil] at isAmount length
        omega
      · omega
    · rw [not_or, Nat.not_lt] at fewer
      by_cases isEmpty : state.live = []
      · rw [isEmpty, keptUnits_nil, List.length_nil] at length
        exact absurd (List.length_eq_zero_iff.mp (Nat.add_eq_zero_iff.mp length).1) (isEmpty ▸ fewer.1)
      · exact absurd amount (sweep_sunk isPrepared word nodup small counted isEmpty fewer.2 result)
  · intro isKept
    have fewer : refreed elemSize state.live newFront newBack top = [] ∨
        (refreed elemSize state.live newFront newBack top).length <
          state.allocator.allocatedElementsAmount := by
      by_cases isEmpty : state.live = []
      · left
        rw [isEmpty, keptUnits_nil, List.length_nil] at length
        exact isEmpty ▸ List.length_eq_zero_iff.mp (Nat.add_eq_zero_iff.mp length).1
      · right
        have positive := List.length_pos_iff.mpr isEmpty
        omega
    obtain ⟨next, newChain, result, newRep, amount, same⟩ := outcome fewer
    have newInv : Inv elemSize ⟨next, state.live⟩ := by
      refine ⟨⟨newChain, newFront, newBack, top, newRep⟩, ?_, ?_⟩
      · simp only
        omega
      · simp only
        omega
    refine ⟨next, result, fun unit isLive => ⟨newRep.allocated word isLive, same unit isLive⟩, by omega, ?_⟩
    intro later leads
    have laterInv := newInv.leads word leads
    refine ⟨?_, laterInv.pairwise word⟩
    intro event enabled _ fault
    obtain ⟨after, isAfter, _⟩ := inv_step laterInv word enabled
    cases fault.symm.trans isAfter

/-- After any run `cleanSweep` is safe if and only if the recorded amount is that of the units
up to the last live one of the blocks that it keeps. -/
theorem cleanSweep_safe_iff (word : 0 < elemSize)
    (reachable : (machine elemSize).Reachable (fun _ _ => True) state)
    (unmarked : ∀ unit ∈ state.live, state.allocator.memory unit ≠ unusedValue) :
    SweepsSafely elemSize unusedValue state ↔
      state.allocator.allocatedElementsAmount =
        keptUnits elemSize state.live state.allocator.ptrs :=
  (inv_reachable word reachable).sweepsSafely_iff word unmarked

/-! ## Three elements of 8 bytes -/

/-- The block of the program and elements at its units. -/
def sampleState (headIndex amount : Nat) (live : List Nat) : State :=
  ⟨⟨[4096], headIndex, 0, amount, fun _ => 0⟩, live⟩

theorem sample_reachable :
    (machine 8).Reachable (fun _ _ => True) (sampleState 3 3 [4098, 4097, 4096]) := by
  have init : (machine 8).Init (sampleState 0 0 []) :=
    ⟨4096, fun _ => 0, by decide, by decide, rfl⟩
  have first : (machine 8).Reachable (fun _ _ => True) (sampleState 1 1 [4096]) :=
    @Machine.Reachable.step _ _ _ _ _ _ (.allocate 0) (.init init) ⟨by decide, .inl rfl⟩ trivial rfl
  have second : (machine 8).Reachable (fun _ _ => True) (sampleState 2 2 [4097, 4096]) :=
    @Machine.Reachable.step _ _ _ _ _ _ (.allocate 0) first ⟨by decide, .inl rfl⟩ trivial rfl
  exact @Machine.Reachable.step _ _ _ _ _ _ (.allocate 0) second ⟨by decide, .inl rfl⟩ trivial rfl

/-- With the first element deallocated the amount is one too small afterwards. -/
theorem cleanSweep_miscounts : ∃ state, (machine 8).Reachable (fun _ _ => True) state ∧
    (∀ unit ∈ state.live, state.allocator.memory unit ≠ sizeMax) ∧
    ¬ SweepsSafely 8 sizeMax state := by
  have freed : step 8 (sampleState 3 3 [4098, 4097, 4096]) (.deallocate 4096) =
      some ⟨⟨[4096], 3, 4096, 2, Function.update (fun _ => 0) 4096 0⟩, [4098, 4097]⟩ := by
    rw [step, deallocate_eq (by decide) (by decide) (by decide)]
    rfl
  have reachable := @Machine.Reachable.step _ _ (machine 8) _ _ _ (.deallocate 4096)
    sample_reachable (.inr (by decide)) trivial freed
  have unmarked : ∀ unit ∈ [4098, 4097],
      Function.update (fun _ : Nat => 0) 4096 0 unit ≠ sizeMax := by decide
  refine ⟨_, reachable, unmarked, ?_⟩
  rw [(inv_reachable (by decide) reachable).sweepsSafely_iff (by decide) unmarked]
  decide +kernel

/-- All three are live. -/
theorem cleanSweep_safe_three : SweepsSafely 8 sizeMax (sampleState 3 3 [4098, 4097, 4096]) :=
  (cleanSweep_safe_iff (by decide) sample_reachable (by decide)).mpr (by decide +kernel)

end MallocSurvey.FsbAllocator2
