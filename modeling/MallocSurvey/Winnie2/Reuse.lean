import MallocSurvey.Winnie2.Steps

/-! # The pools of winnie2 are reused

While the calls meet the adapter's conditions every deallocated block goes back to
where it came from, so a repeated sequence of requests finds all its blocks free. -/

namespace MallocSurvey.Winnie2

open Library

variable {sizeofT : Nat}

/-! ## What the calls do -/

/-- What an allocation of some elements leads to. -/
inductive Allocated (sizeofT : Nat) (state : State) (count answer : Nat) : State → Prop
  | badAlloc : 256 < count * sizeofT → answer = 0 → Allocated sizeofT state count answer state
  | served {next : State} (p : Nat) :
      next.live = ⟨p, count, some (route (count * sizeofT : Nat))⟩ :: state.live →
      next.returned = state.returned →
      (next.chunks = state.chunks ∨
        count * sizeofT ≤ 256 ∧ firstOf (count * sizeofT) state.free = none ∧
          next.chunks = (count * sizeofT, answer) :: state.chunks) →
      (256 < count * sizeofT → answer ≠ 0) →
      Inv sizeofT next.fa next.live next.free next.chunks →
      Allocated sizeofT state count answer next

/-- `fixed_malloc` takes the first block of the bin, of a new large block if there is
none. -/
theorem fixedMalloc_spec {fa next : FixedAllocator} {live : List Block}
    {free : List (FreeBlock Nat)} {chunks : List (Nat × Nat)} {count answer p : Nat}
    (inv : Inv sizeofT fa live free chunks) (word : 8 ≤ count * sizeofT)
    (small : count * sizeofT ≤ 256) (answers : Answers fa.reserved largeBlockSize answer)
    (result : fixedMalloc fa (count * sizeofT) answer = some (p, next)) :
    p ≠ 0 ∧
      (fa.firstFrees (count * sizeofT) ≠ 0 ∧
          Inv sizeofT next (⟨p, count, some (.bin (count * sizeofT : Nat))⟩ :: live)
            (dropFirst (count * sizeofT) free) chunks ∨
        fa.firstFrees (count * sizeofT) = 0 ∧
          Inv sizeofT next (⟨p, count, some (.bin (count * sizeofT : Nat))⟩ :: live)
            (dropFirst (count * sizeofT) (carved (count * sizeofT) answer free))
            ((count * sizeofT, answer) :: chunks)) := by
  have inTable : ¬ UPTO ≤ count * sizeofT := by unfold UPTO; omega
  unfold fixedMalloc at result
  rw [if_neg inTable] at result
  by_cases empty : fa.firstFrees (count * sizeofT) = 0
  · rw [if_pos empty] at result
    unfold newBlock at result
    split at result
    · cases result
    · next valid =>
        rw [not_or] at valid
        cases result
        have fresh : Fresh fa ⟨answer, largeBlockSize⟩ :=
          .of_answers answers valid.2 largeBlockSize_pos
        have carvedInv := inv.newBlock word small empty fresh
        have nonempty : Function.update fa.firstFrees (count * sizeofT) answer
            (count * sizeofT) ≠ 0 := by
          rw [Function.update_self]
          exact valid.2
        obtain ⟨block, found, isHead⟩ := carvedInv.chained.firstOf_head nonempty
        have taken := carvedInv.take word small found
        simp only [Function.update_self, Function.update_idem] at isHead taken
        rw [isHead] at taken
        exact ⟨valid.2, .inr ⟨empty, taken⟩⟩
  · rw [if_neg empty] at result
    cases result
    obtain ⟨block, found, isHead⟩ := inv.chained.firstOf_head empty
    have taken := inv.take word small found
    rw [isHead] at taken
    exact ⟨empty, .inl ⟨empty, taken⟩⟩

theorem wmalloc_pool {fa : FixedAllocator} {size answer : Nat} (small : size ≤ 256) :
    wmalloc fa size answer = fixedMalloc fa size answer := by
  rw [wmalloc, if_neg (by omega), if_neg (by omega), Int.toNat_natCast]

theorem wmalloc_heap {fa : FixedAllocator} {size answer : Nat} (large : 256 < size) :
    wmalloc fa size answer = some (malloc fa size answer) := by
  rw [wmalloc, if_pos (by omega), Int.toNat_natCast]

/-- The argument of `wmalloc` is the number of bytes. -/
theorem allocate_served {state next : State} {count answer : Nat} (nonzero : count ≠ 0)
    (int : count * sizeofT < 2 ^ 31)
    (result : step sizeofT state (.allocate count answer) = some next) :
    ∃ p fa, wmalloc state.fa (count * sizeofT : Nat) answer = some (p, fa) ∧
      next = state.allocated sizeofT count answer fa (if p = 0 then .badAlloc else .pointer p) := by
  have isGranularity : toInt (count * sizeofT % 2 ^ 64) = (count * sizeofT : Nat) :=
    granularity_eq int
  rw [step, allocate, if_neg nonzero, isGranularity] at result
  cases served : wmalloc state.fa (count * sizeofT : Nat) answer with
  | none =>
      rw [served] at result
      cases result
  | some pair =>
      rw [served] at result
      exact ⟨pair.1, pair.2, rfl, (Option.some.inj result).symm⟩

theorem pool_allocate {state next : State} {count answer : Nat}
    (inv : state.Inv sizeofT) (nonzero : count ≠ 0) (word : 8 ≤ count * sizeofT)
    (small : count * sizeofT ≤ 256)
    (answers : Answers state.fa.reserved largeBlockSize answer)
    (result : step sizeofT state (.allocate count answer) = some next) :
    Allocated sizeofT state count answer next := by
  have int : count * sizeofT < 2 ^ 31 := Nat.lt_of_le_of_lt small (by decide)
  have isRoute := route_pool small
  have notLarge : 256 < count * sizeofT → answer ≠ 0 := by omega
  obtain ⟨p, fa, served, rfl⟩ := allocate_served nonzero int result
  rw [wmalloc_pool small] at served
  obtain ⟨pNonzero, spec⟩ := fixedMalloc_spec inv.blocks word small answers served
  rw [if_neg pNonzero, State.allocated, if_neg nonzero, granularity_eq int, isRoute]
  have isLive := congrArg (fun source => Block.mk p count (some source) :: state.live)
    isRoute.symm
  rcases spec with ⟨nonempty, kept⟩ | ⟨empty, kept⟩
  · simp only [State.served, Int.toNat_natCast, if_neg nonempty]
    exact .served p isLive rfl (.inl rfl) notLarge kept
  · have missing := (inv.blocks.chained.head_eq_zero_iff _).mp empty
    simp only [State.served, Int.toNat_natCast, if_pos empty]
    exact .served p isLive rfl (.inr ⟨small, missing, rfl⟩) notLarge kept

theorem heap_allocate {state next : State} {count answer : Nat}
    (inv : state.Inv sizeofT) (nonzero : count ≠ 0) (large : 256 < count * sizeofT)
    (int : count * sizeofT < 2 ^ 31)
    (answers : Answers state.fa.reserved (count * sizeofT) answer)
    (result : step sizeofT state (.allocate count answer) = some next) :
    Allocated sizeofT state count answer next := by
  have isRoute := route_heap large
  obtain ⟨p, fa, served, rfl⟩ := allocate_served nonzero int result
  rw [wmalloc_heap large, malloc] at served
  by_cases isNull : answer = 0
  · rw [if_pos isNull] at served
    cases served
    exact .badAlloc large isNull
  · have fresh : Fresh state.fa ⟨answer, count * sizeofT⟩ :=
      .of_answers answers isNull (by omega)
    rw [if_neg isNull] at served
    cases served
    rw [if_neg isNull, State.allocated, if_neg nonzero, granularity_eq int, isRoute]
    have isLive := congrArg (fun source => Block.mk answer count (some source) :: state.live)
      isRoute.symm
    exact .served answer isLive rfl (.inl rfl) (fun _ => isNull)
      (inv.blocks.mallocBlock fresh large int)

theorem allocate_cases {state next : State} {count answer : Nat} (inv : state.Inv sizeofT)
    (enabled : Enabled sizeofT state (.allocate count answer)) (nonzero : count ≠ 0)
    (word : 8 ≤ count * sizeofT) (int : count * sizeofT < 2 ^ 31)
    (result : step sizeofT state (.allocate count answer) = some next) :
    Allocated sizeofT state count answer next := by
  rw [Enabled, granularity_eq int] at enabled
  by_cases large : 256 < count * sizeofT
  · rw [route_heap large] at enabled
    exact heap_allocate inv nonzero large int enabled result
  · rw [route_pool (Nat.le_of_not_lt large)] at enabled
    exact pool_allocate inv nonzero word (Nat.le_of_not_lt large) enabled result

theorem allocate_zero {fa : FixedAllocator} {count answer : Nat} (isZero : count = 0) :
    allocate sizeofT fa count answer = some (.pointer 0, fa) :=
  if_pos isZero

theorem allocated_zero {state : State} {count answer : Nat} (isZero : count = 0) :
    state.allocated sizeofT count answer state.fa (.pointer 0) =
      { state with live := ⟨0, count, none⟩ :: state.live } :=
  if_pos isZero

theorem step_zero {state : State} {count answer : Nat} (isZero : count = 0) :
    step sizeofT state (.allocate count answer) =
      some (state.allocated sizeofT count answer state.fa (.pointer 0)) := by
  rw [step, allocate_zero isZero]
  rfl

theorem allocate_null {state next : State} {count answer : Nat} (isZero : count = 0)
    (result : step sizeofT state (.allocate count answer) = some next) :
    next = { state with live := ⟨0, count, none⟩ :: state.live } := by
  rw [step_zero isZero, allocated_zero isZero] at result
  exact (Option.some.inj result).symm

theorem wfree_heap {fa : FixedAllocator} {ptr size : Nat} (large : 256 < size) :
    wfree fa ptr size = free fa ptr := by
  rw [wfree, if_pos (by omega)]

theorem wfree_pool {fa : FixedAllocator} {ptr size : Nat} (small : size ≤ 256) :
    wfree fa ptr size = fixedFree fa ptr size := by
  rw [wfree, if_neg (by omega), if_neg (by omega), Int.toNat_natCast]

theorem deallocate_served {state next : State} {index : Nat} {block : Block}
    (found : state.live[index]? = some block)
    (result : step sizeofT state (.deallocate index) = some next) :
    ∃ fa, deallocate state.fa block.start block.count = some fa ∧
      next = state.deallocated index block fa := by
  rw [step, found, Option.bind_eq_bind, Option.bind_some] at result
  cases call : deallocate state.fa block.start block.count with
  | none =>
      rw [call] at result
      cases result
  | some fa =>
      rw [call] at result
      exact ⟨fa, rfl, (Option.some.inj result).symm⟩

/-- The blocks after a deallocation that meets the condition. -/
theorem Inv.deallocate {state : State} {fa : FixedAllocator} {index : Nat} {block : Block}
    (inv : Inv sizeofT state.fa state.live state.free state.chunks) (positive : 0 < sizeofT)
    (found : state.live[index]? = some block)
    (ok : BlockOk sizeofT state.fa state.chunks block)
    (routed : sizeofT = 1 ∨ 256 < block.count)
    (call : wfree state.fa block.start block.count = some fa) :
    Inv sizeofT fa (state.live.eraseIdx index)
      (state.returnedTo (route block.count) block.start) state.chunks := by
  by_cases large : 256 < block.count
  · have more := Nat.le_mul_of_pos_right block.count positive
    rw [wfree_heap large] at call
    rw [route_heap large]
    exact inv.release found ok (Nat.lt_of_lt_of_le large more) call
  · have small := Nat.le_of_not_lt large
    have single : sizeofT = 1 := routed.resolve_right large
    have isBytes : block.count * sizeofT = block.count := by rw [single, Nat.mul_one]
    have inTable : ¬ UPTO ≤ block.count := by unfold UPTO; omega
    have pushed := inv.push found ok (isBytes.symm ▸ small)
    rw [isBytes] at pushed
    rw [wfree_pool small, fixedFree, if_neg (not_or.mpr ⟨inTable, ok.nonzero⟩)] at call
    cases call
    rw [route_pool small]
    exact pushed

/-- A block that meets the condition goes back to where it came from. -/
theorem deallocate_cases {state next : State} {index : Nat} {block : Block}
    (inv : state.Inv sizeofT) (positive : 0 < sizeofT)
    (found : state.live[index]? = some block) (nonzero : block.count ≠ 0)
    (routed : sizeofT = 1 ∨ 256 < block.count)
    (result : step sizeofT state (.deallocate index) = some next) :
    next.live = state.live.eraseIdx index ∧ next.chunks = state.chunks ∧
      next.Inv sizeofT := by
  have ok := (inv.blocks.liveOk block (List.mem_of_getElem? found)).resolve_left
    fun isNull => nonzero isNull.1
  have isCount := toInt_count ok.int positive
  obtain ⟨fa, call, rfl⟩ := deallocate_served found result
  rw [Winnie2.deallocate, isCount] at call
  rw [State.deallocated, isCount]
  refine ⟨rfl, rfl, inv.blocks.deallocate positive found ok routed call, ?_⟩
  intro pair member
  rcases List.mem_cons.mp member with isNew | member
  · rw [isNew, (route_count_iff positive nonzero).mpr routed]
    exact ok.source
  · exact inv.returned pair member

theorem State.Inv.blockCount {state : State} (inv : state.Inv sizeofT) (size : Nat) :
    state.live.countP (fun block => block.source = some (.bin size)) ≤
      state.chunks.countP (fun chunk => chunk.1 = size) * nBlocks size :=
  inv.blocks.counts size ▸ Nat.le_add_left _ _

theorem firstOf_none_count {size : Nat} {free : List (FreeBlock Nat)}
    (missing : firstOf size free = none) :
    free.countP (fun block => block.bin = size) = 0 :=
  List.countP_eq_zero.mpr (List.find?_eq_none.mp missing)

theorem inv_step {state next : State} {event : Event} (positive : 0 < sizeofT)
    (inv : state.Inv sizeofT) (enabled : Enabled sizeofT state event)
    (meets : Meets sizeofT state event) (result : step sizeofT state event = some next) :
    next.Inv sizeofT := by
  cases event with
  | allocate count answer =>
      by_cases isZero : count = 0
      · rw [allocate_null isZero result, isZero]
        exact ⟨inv.blocks.null 0, inv.returned⟩
      · obtain ⟨word, int⟩ := meets.resolve_left isZero
        cases allocate_cases inv enabled isZero word int result with
        | badAlloc _ _ => exact inv
        | served p isLive isReturned _ _ kept => exact ⟨kept, isReturned ▸ inv.returned⟩
  | deallocate index =>
      have found := List.getElem?_eq_getElem enabled
      obtain ⟨nonzero, routed⟩ := meets _ found
      exact (deallocate_cases inv positive found nonzero routed result).2.2
  | write place value =>
      obtain ⟨block, isLive, above, below⟩ := enabled
      cases result
      exact ⟨inv.blocks.write isLive above below value, inv.returned⟩

theorem machine_inv {state next : State} {event : Event} (positive : 0 < sizeofT)
    (inv : state.Inv sizeofT) (enabled : (machine sizeofT).Enabled state event)
    (meets : Meets sizeofT state event)
    (result : (machine sizeofT).step state event = some next) : next.Inv sizeofT :=
  @inv_step sizeofT state next event positive inv enabled meets result

/-! ## Repeating the requests -/

/-- The second sequence of events makes the requests of the first one, or some of them
from the first on, with the same successes of `malloc`. -/
inductive Repeats : List Event → List Event → Prop
  | stop {first : List Event} : Repeats first []
  | writeFirst {first again : List Event} (place : Nat) (value : UInt8) :
      Repeats first again → Repeats (.write place value :: first) again
  | writeAgain {first again : List Event} (place : Nat) (value : UInt8) :
      Repeats first again → Repeats first (.write place value :: again)
  | allocate {first again : List Event} (count answer other : Nat) :
      (answer = 0 ↔ other = 0) → Repeats first again →
      Repeats (.allocate count answer :: first) (.allocate count other :: again)
  | deallocate {first again : List Event} (index : Nat) :
      Repeats first again → Repeats (.deallocate index :: first) (.deallocate index :: again)

/-- What two states in step with each other agree on; the second one may have old
`NULL` pointers. -/
def InStep (first again : State) : Prop :=
  ∃ nulls : List (Nat × Option Source), (∀ null ∈ nulls, null.2 = none) ∧
    again.live.map (fun block => (block.count, block.source)) =
      first.live.map (fun block => (block.count, block.source)) ++ nulls

theorem InStep.count_eq {first again : State} (inStep : InStep first again) (size : Nat) :
    again.live.countP (fun block => block.source = some (.bin size)) =
      first.live.countP (fun block => block.source = some (.bin size)) := by
  obtain ⟨nulls, isNull, same⟩ := inStep
  have counted := congrArg
    (List.countP fun shape : Nat × Option Source => shape.2 = some (.bin size)) same
  rw [List.countP_append, List.countP_map, List.countP_map] at counted
  have noNulls : nulls.countP (fun shape => shape.2 = some (.bin size)) = 0 := by
    apply List.countP_eq_zero.mpr
    intro null member
    simp [isNull null member]
  rw [noNulls, Nat.add_zero] at counted
  exact counted

theorem InStep.push {first again firstNext againNext : State} (inStep : InStep first again)
    {left right : Block} (firstLive : firstNext.live = left :: first.live)
    (againLive : againNext.live = right :: again.live)
    (same : (left.count, left.source) = (right.count, right.source)) :
    InStep firstNext againNext := by
  obtain ⟨nulls, isNull, shapes⟩ := inStep
  refine ⟨nulls, isNull, ?_⟩
  rw [firstLive, againLive, List.map_cons, List.map_cons, List.cons_append, shapes, same]

theorem InStep.erase {first again firstNext againNext : State} (inStep : InStep first again)
    {index : Nat} (inRange : index < first.live.length)
    (firstLive : firstNext.live = first.live.eraseIdx index)
    (againLive : againNext.live = again.live.eraseIdx index) : InStep firstNext againNext := by
  obtain ⟨nulls, isNull, shapes⟩ := inStep
  refine ⟨nulls, isNull, ?_⟩
  rw [firstLive, againLive, ← List.eraseIdx_map, ← List.eraseIdx_map, shapes,
    List.eraseIdx_append_of_lt_length (by rwa [List.length_map])]

theorem chunks_mono {state next : State} {events : List Event} (positive : 0 < sizeofT)
    (runs : (machine sizeofT).Runs (Meets sizeofT) state events next)
    (inv : state.Inv sizeofT) (size : Nat) :
    state.chunks.countP (fun chunk => chunk.1 = size) ≤
      next.chunks.countP (fun chunk => chunk.1 = size) := by
  induction runs with
  | nil => exact Nat.le_refl _
  | @cons state middle next event events enabled meets result _ induction =>
      refine Nat.le_trans ?_ (induction (inv_step positive inv enabled meets result))
      cases event with
      | allocate count answer =>
          by_cases isZero : count = 0
          · rw [allocate_null isZero result]
          · obtain ⟨word, int⟩ := meets.resolve_left isZero
            cases allocate_cases inv enabled isZero word int result with
            | badAlloc _ _ => exact Nat.le_refl _
            | served _ _ _ chunks _ _ =>
                rcases chunks with same | ⟨_, _, more⟩
                · rw [same]
                · rw [more]
                  exact (List.sublist_cons_self _ _).countP_le
      | deallocate index =>
          have found := List.getElem?_eq_getElem enabled
          obtain ⟨nonzero, routed⟩ := meets _ found
          rw [(deallocate_cases inv positive found nonzero routed result).2.1]
      | write place value =>
          cases result
          exact Nat.le_refl _

/-- An allocation in step with an earlier one finds a free block. -/
theorem found_again {first again firstNext last : State} {count : Nat}
    {events : List Event} (positive : 0 < sizeofT) (againInv : again.Inv sizeofT)
    (inStep : InStep first again) (firstInv : firstNext.Inv sizeofT) {block : Block}
    (firstLive : firstNext.live = block :: first.live)
    (isPooled : block.source = some (.bin (count * sizeofT : Nat)))
    (runs : (machine sizeofT).Runs (Meets sizeofT) firstNext events last)
    (enough : ∀ size, last.chunks.countP (fun chunk => chunk.1 = size) ≤
      again.chunks.countP (fun chunk => chunk.1 = size))
    (missing : firstOf (count * sizeofT) again.free = none) : False := by
  have room := firstInv.blockCount (count * sizeofT)
  have later := chunks_mono positive runs firstInv (count * sizeofT)
  have carved := Nat.mul_le_mul_right (nBlocks (count * sizeofT))
    (Nat.le_trans later (enough (count * sizeofT)))
  have full := againInv.blocks.counts (count * sizeofT)
  have same := inStep.count_eq (count * sizeofT)
  rw [firstLive, List.countP_cons_of_pos (by simpa using isPooled)] at room
  rw [firstOf_none_count missing] at full
  omega

/-- Requests that have been served before are served without carving. -/
theorem repeats_chunks {firstEvents againEvents : List Event} (positive : 0 < sizeofT)
    (repeats : Repeats firstEvents againEvents) :
    ∀ {first last again final : State}, first.Inv sizeofT → again.Inv sizeofT →
      (machine sizeofT).Runs (Meets sizeofT) first firstEvents last →
      (machine sizeofT).Runs (Meets sizeofT) again againEvents final →
      InStep first again →
      (∀ size, last.chunks.countP (fun chunk => chunk.1 = size) ≤
        again.chunks.countP (fun chunk => chunk.1 = size)) →
      final.chunks = again.chunks := by
  induction repeats with
  | stop =>
      intro first last again final _ _ _ againRuns _ _
      cases againRuns
      rfl
  | writeFirst place value _ induction =>
      intro first last again final firstInv againInv firstRuns againRuns inStep enough
      cases firstRuns with
      | cons enabled meets result rest =>
          have nextInv := machine_inv positive firstInv enabled meets result
          cases result
          exact induction nextInv againInv rest againRuns inStep enough
  | writeAgain place value _ induction =>
      intro first last again final firstInv againInv firstRuns againRuns inStep enough
      cases againRuns with
      | cons enabled meets result rest =>
          have nextInv := machine_inv positive againInv enabled meets result
          cases result
          have same := induction firstInv nextInv firstRuns rest inStep enough
          exact same
  | allocate count answer other sameSuccess _ induction =>
      intro first last again final firstInv againInv firstRuns againRuns inStep enough
      cases firstRuns with
      | @cons _ firstNext _ _ _ firstEnabled firstMeets firstResult firstRest =>
      cases againRuns with
      | @cons _ againNext _ _ _ againEnabled againMeets againResult againRest =>
      have firstNextInv := machine_inv positive firstInv firstEnabled firstMeets firstResult
      have againNextInv := machine_inv positive againInv againEnabled againMeets againResult
      by_cases isZero : count = 0
      · have firstNull := allocate_null isZero firstResult
        have againNull := allocate_null isZero againResult
        have sameChunks : againNext.chunks = again.chunks := by rw [againNull]
        have nextStep : InStep firstNext againNext := by
          rw [firstNull, againNull]
          exact inStep.push rfl rfl rfl
        rw [← sameChunks] at enough ⊢
        exact induction firstNextInv againNextInv firstRest againRest nextStep enough
      · obtain ⟨word, int⟩ := Or.resolve_left firstMeets isZero
        cases allocate_cases firstInv firstEnabled isZero word int firstResult with
        | badAlloc large isNull =>
            cases allocate_cases againInv againEnabled isZero word int againResult with
            | badAlloc _ _ =>
                exact induction firstInv againInv firstRest againRest inStep enough
            | served _ _ _ _ notNull _ =>
                exact absurd (sameSuccess.mp isNull) (notNull large)
        | served p firstLive _ _ notNull _ =>
            cases allocate_cases againInv againEnabled isZero word int againResult with
            | badAlloc large isNull =>
                exact absurd (sameSuccess.mpr isNull) (notNull large)
            | served q againLive _ chunks _ _ =>
                have sameChunks : againNext.chunks = again.chunks := by
                  rcases chunks with same | ⟨small, missing, _⟩
                  · exact same
                  · exact (found_again positive againInv inStep firstNextInv firstLive
                      (congrArg some (route_pool small)) firstRest enough missing).elim
                have nextStep := inStep.push firstLive againLive rfl
                rw [← sameChunks] at enough ⊢
                exact induction firstNextInv againNextInv firstRest againRest nextStep enough
  | deallocate index _ induction =>
      intro first last again final firstInv againInv firstRuns againRuns inStep enough
      cases firstRuns with
      | cons firstEnabled firstMeets firstResult firstRest =>
      cases againRuns with
      | cons againEnabled againMeets againResult againRest =>
      have firstFound := List.getElem?_eq_getElem firstEnabled
      have againFound := List.getElem?_eq_getElem againEnabled
      obtain ⟨firstNonzero, firstRouted⟩ := firstMeets _ firstFound
      obtain ⟨againNonzero, againRouted⟩ := againMeets _ againFound
      obtain ⟨firstLive, _, firstNextInv⟩ :=
        deallocate_cases firstInv positive firstFound firstNonzero firstRouted firstResult
      obtain ⟨againLive, sameChunks, againNextInv⟩ :=
        deallocate_cases againInv positive againFound againNonzero againRouted againResult
      have nextStep := inStep.erase firstEnabled firstLive againLive
      rw [← sameChunks] at enough ⊢
      exact induction firstNextInv againNextInv firstRest againRest nextStep enough

/-! ## The adapter -/

theorem State.Inv.sound {state : State} (inv : state.Inv sizeofT) : Sound sizeofT state where
  returned := inv.returned
  free block isFree := (inv.blocks.freeOk block isFree).pooled
  pooled := by
    intro block isLive size isBin
    rcases inv.blocks.liveOk block isLive with isNull | ok
    · rw [isNull.2] at isBin
      cases isBin
    · have isRoute := Option.some.inj (ok.source.symm.trans isBin)
      by_cases large : 256 < block.count * sizeofT
      · rw [route_heap large] at isRoute
        cases isRoute
      · rw [route_pool (Nat.le_of_not_lt large), Source.bin.injEq] at isRoute
        exact ⟨isRoute.symm, ok.pooled (Nat.le_of_not_lt large)⟩
  fromHeap := by
    intro block isLive isHeap
    rcases inv.blocks.liveOk block isLive with isNull | ok
    · rw [isNull.2] at isHeap
      cases isHeap
    · have isRoute := Option.some.inj (ok.source.symm.trans isHeap)
      by_cases large : 256 < block.count * sizeofT
      · exact ok.fromHeap large
      · rw [route_pool (Nat.le_of_not_lt large)] at isRoute
        cases isRoute

theorem initial_inv {state : State} (isInit : (machine sizeofT).Init state) :
    state.Inv sizeofT ∧ state.live = [] := by
  obtain ⟨memory, rfl⟩ := isInit
  exact ⟨⟨inv_initial sizeofT memory, nofun⟩, rfl⟩

/-- In a run of calls that meet the conditions every block goes back to where it came
from, and once all are deallocated a repetition of the requests carves nothing. A
deallocation goes to the source of its block exactly if it meets the condition. -/
theorem memory_returns_iff (positive : 0 < sizeofT) {start state : State}
    {events : List Event} (isInit : (machine sizeofT).Init start)
    (runs : (machine sizeofT).Runs (Meets sizeofT) start events state) :
    Sound sizeofT state ∧
      ((∀ block ∈ state.live, block.count = 0) → ∀ again final, Repeats events again →
        (machine sizeofT).Runs (Meets sizeofT) state again final →
        final.chunks = state.chunks) ∧
      ∀ block ∈ state.live, block.count ≠ 0 →
        (block.source = some (route (toInt block.count)) ↔
          sizeofT = 1 ∨ 256 < block.count) := by
  obtain ⟨startInv, noBlocks⟩ := initial_inv isInit
  have inv : state.Inv sizeofT := runs.invariant
    (fun _ _ _ inv enabled meets result => machine_inv positive inv enabled meets result) startInv
  refine ⟨inv.sound, ?_, ?_⟩
  · intro allNull again final repeats againRuns
    refine repeats_chunks positive repeats startInv inv runs againRuns ?_
      (fun _ => Nat.le_refl _)
    refine ⟨state.live.map fun block => (block.count, block.source), ?_, by rw [noBlocks]; rfl⟩
    intro null member
    obtain ⟨block, isLive, rfl⟩ := List.mem_map.mp member
    rcases inv.blocks.liveOk block isLive with isNull | ok
    · exact isNull.2
    · have word := ok.word
      rw [allNull block isLive, Nat.zero_mul] at word
      omega
  · intro block isLive nonzero
    have ok := (inv.blocks.liveOk block isLive).resolve_left fun isNull => nonzero isNull.1
    rw [ok.source, Option.some.injEq, toInt_count ok.int positive, eq_comm]
    exact route_count_iff positive nonzero

/-! ## Elements of 4 and of 16 bytes -/

section Examples

def noMemory : Memory := fun _ => 0

/-- The first request of a pool is served by a new large block. -/
theorem allocate_first {count : Nat} (nonzero : count ≠ 0) (word : 8 ≤ count * sizeofT)
    (small : count * sizeofT ≤ 256) :
    ∃ next, step sizeofT (.initial noMemory) (.allocate count 4096) = some next ∧
      ∃ p, next.live = [⟨p, count, some (.bin (count * sizeofT : Nat))⟩] ∧
        next.Inv sizeofT := by
  have int : count * sizeofT < 2 ^ 31 := Nat.lt_of_le_of_lt small (by decide)
  have isGranularity : toInt (count * sizeofT % 2 ^ 64) = (count * sizeofT : Nat) :=
    granularity_eq int
  have inTable : ¬ UPTO ≤ count * sizeofT := by unfold UPTO; omega
  have carves : ¬ (count * sizeofT = 0 ∨ 4096 = 0) := by omega
  have startInv : State.Inv sizeofT (.initial noMemory) := ⟨inv_initial sizeofT noMemory, nofun⟩
  have answers : Answers (State.initial noMemory).fa.reserved largeBlockSize 4096 :=
    .inr ⟨by decide, nofun⟩
  have enabled : Enabled sizeofT (.initial noMemory) (.allocate count 4096) := by
    rw [Enabled, granularity_eq int, route_pool small]
    exact answers
  have empty : (State.initial noMemory).fa.firstFrees (count * sizeofT) = 0 := rfl
  have served : ∃ next, step sizeofT (.initial noMemory) (.allocate count 4096) = some next := by
    rw [step, allocate, if_neg nonzero, isGranularity, wmalloc_pool small, fixedMalloc,
      if_neg inTable, if_pos empty, newBlock, if_neg carves]
    exact ⟨_, rfl⟩
  obtain ⟨next, result⟩ := served
  refine ⟨next, result, ?_⟩
  cases allocate_cases startInv enabled nonzero word int result with
  | badAlloc large _ => exact absurd small (Nat.not_le_of_lt large)
  | served p isLive isReturned _ _ kept =>
      rw [route_pool small] at isLive
      exact ⟨p, isLive, kept, isReturned ▸ startInv.returned⟩

theorem memory_returns_oneBlock :
    ∃ state, (machine 16).Runs (Meets 16) (.initial noMemory) [.allocate 1 4096] state ∧
      Sound 16 state ∧
      ((∀ block ∈ state.live, block.count = 0) → ∀ again final,
        Repeats [.allocate 1 4096] again → (machine 16).Runs (Meets 16) state again final →
        final.chunks = state.chunks) ∧
      ∀ block ∈ state.live, block.count ≠ 0 →
        (block.source = some (route (toInt block.count)) ↔ 16 = 1 ∨ 256 < block.count) := by
  obtain ⟨state, result, _⟩ :=
    @allocate_first 16 1 (by decide) (by decide) (by decide)
  have enabled : Enabled 16 (.initial noMemory) (.allocate 1 4096) :=
    .inr ⟨by decide, nofun⟩
  have runs : (machine 16).Runs (Meets 16) (.initial noMemory) [.allocate 1 4096] state :=
    .cons enabled (.inr (by decide)) result .nil
  exact ⟨state, runs, memory_returns_iff (by decide) ⟨noMemory, rfl⟩ runs⟩

/-- Four elements of four bytes come from bin 16 and go to bin 4. -/
theorem wrong_bin :
    ¬ ∀ (sizeofT : Nat) (start state : State) (events : List Event), 0 < sizeofT →
      (machine sizeofT).Init start →
      (machine sizeofT).Runs (fun _ _ => True) start events state →
      ∀ pair ∈ state.returned, pair.1 = some pair.2 := by
  intro allReturned
  obtain ⟨middle, result, p, isLive, inv⟩ :=
    @allocate_first 4 4 (by decide) (by decide) (by decide)
  have found : middle.live[0]? = some ⟨p, 4, some (.bin 16)⟩ := by
    rw [isLive]
    rfl
  have nonzero : p ≠ 0 := by
    rcases inv.blocks.liveOk _ (List.mem_of_getElem? found) with isNull | ok
    · cases isNull.2
    · exact ok.nonzero
  have isCount : toInt 4 = (4 : Nat) := toInt_of_lt (by decide)
  have inTable : ¬ UPTO ≤ 4 := by decide
  have call : ∃ fa, deallocate middle.fa p 4 = some fa := by
    rw [deallocate, isCount, wfree_pool (by decide), fixedFree,
      if_neg (not_or.mpr ⟨inTable, nonzero⟩)]
    exact ⟨_, rfl⟩
  obtain ⟨fa, call⟩ := call
  have second : step 4 middle (.deallocate 0) =
      some (middle.deallocated 0 ⟨p, 4, some (.bin 16)⟩ fa) := by
    rw [step, found, Option.bind_eq_bind, Option.bind_some, call]
    rfl
  have enabled : Enabled 4 (.initial noMemory) (.allocate 4 4096) :=
    .inr ⟨by decide, nofun⟩
  have inRange : Enabled 4 middle (.deallocate 0) := by
    rw [Enabled, isLive]
    exact Nat.one_pos
  have returned := allReturned 4 _ _ [.allocate 4 4096, .deallocate 0] (by decide)
    ⟨noMemory, rfl⟩ (.cons enabled trivial result (.cons inRange trivial second .nil))
    (some (.bin 16), route (toInt 4)) List.mem_cons_self
  rw [isCount] at returned
  exact absurd returned (by decide)

end Examples

end MallocSurvey.Winnie2
