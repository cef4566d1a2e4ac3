import MallocSurvey.Uray.Queues

/-! # The pool is exact when its lists have equal shares

With a remainder the pool counts objects that no list has, and the search for them
does not end. -/

namespace MallocSurvey.Uray

open Library

variable {processors count parallelCount : Nat}

/-- The runs of a program of one thread. -/
def Reached (processors count parallelCount : Nat) (state : State) : Prop :=
  (machine processors count parallelCount).Reachable (fun _ _ => True) state

/-- The invariant holds of some queues. -/
def Kept (listCount count : Nat) (state : State) : Prop :=
  ∃ queues, Inv listCount count queues state

theorem step_borrowObj (state : State) (fuel : Nat) : step state (.borrowObj fuel) = (do
    let (object, pool) ← borrowObj fuel state.pool
    return State.mk pool (object.toList ++ state.borrowed)) := rfl

theorem reached_inv (someProcessor : 0 < processors) {state : State}
    (reached : Reached processors count parallelCount state) :
    Kept (listCountOf processors parallelCount) count state := by
  have positive := listCountOf_pos someProcessor parallelCount
  apply Machine.Reachable.invariant _ _ reached
  · intro start isInit
    rw [isInit]
    exact ⟨_, Inv.new someProcessor count parallelCount⟩
  · rintro state event next ⟨queues, inv⟩ enabled - result
    cases event with
    | borrowObj fuel =>
        change step state (.borrowObj fuel) = some next at result
        rw [step_borrowObj] at result
        cases borrowed : borrowObj fuel state.pool with
        | none => simp [borrowed] at result
        | some outcome =>
            obtain ⟨object, pool⟩ := outcome
            simp only [borrowed, Option.bind_eq_bind, Option.bind_some] at result
            cases result
            cases inv.borrowObj_cases positive borrowed with
            | refused => exact ⟨queues, inv⟩
            | taken _ _ _ takenInv => exact ⟨_, takenInv⟩
    | returnObj fuel object =>
        change (do
          let pool ← returnObj fuel state.pool object
          return State.mk pool (state.borrowed.erase object)) = some next at result
        cases fuel with
        | zero => simp [returnObj, findProducer] at result
        | succ fuel =>
            rw [inv.returnObj_succ positive] at result
            cases result
            exact ⟨_, inv.put positive enabled⟩

/-- From every reached state objects can be borrowed until the lists have none. -/
theorem reaches_empty (someProcessor : 0 < processors) {state : State}
    (reached : Reached processors count parallelCount state) (left : Nat)
    (isLeft : state.pool.sumAvailable = left) :
    ∃ last, Reached processors count parallelCount last ∧ last.pool.sumAvailable = 0 := by
  have positive := listCountOf_pos someProcessor parallelCount
  induction left generalizing state with
  | zero => exact ⟨state, reached, isLeft⟩
  | succ left induction =>
      obtain ⟨queues, inv⟩ := reached_inv someProcessor reached
      have counted := inv.counted
      obtain ⟨fuel, ⟨object, pool⟩, result⟩ :=
        inv.borrowObj_ends positive (.inl (by omega))
      have stepped : (machine processors count parallelCount).step state (.borrowObj fuel) =
          some ⟨pool, object.toList ++ state.borrowed⟩ := by
        change step state (.borrowObj fuel) = _
        rw [step_borrowObj, result]
        rfl
      have next : Reached processors count parallelCount _ :=
        .step reached
          (show (machine processors count parallelCount).Enabled state (.borrowObj fuel) from
            trivial) trivial stepped
      cases inv.borrowObj_cases positive result with
      | refused none_left => omega
      | taken _ _ _ takenInv =>
          apply induction next
          have counted' := takenInv.counted
          have conserved' := takenInv.conserved
          have conserved := inv.conserved
          change pool.sumAvailable = left
          dsimp only at counted' conserved'
          rw [List.length_cons] at conserved'
          omega

/-- The pool terminates, hands out objects that are not borrowed while there are any,
counts them, and has as many as it was made with. -/
structure Exact (processors count parallelCount : Nat) : Prop where
  terminates : ∀ state, Reached processors count parallelCount state →
    ∃ fuel result, borrowObj fuel state.pool = some result
  refuses : ∀ state fuel pool, Reached processors count parallelCount state →
    borrowObj fuel state.pool = some (none, pool) → state.borrowed.length = count
  borrows : ∀ state fuel object pool, Reached processors count parallelCount state →
    borrowObj fuel state.pool = some (some object, pool) →
      object ∉ state.borrowed ∧
        object.list < state.pool.listCount ∧ object.index ≤ count / state.pool.listCount
  counts : ∀ state, Reached processors count parallelCount state →
    state.pool.available = state.pool.sumAvailable
  most : ∀ state, Reached processors count parallelCount state →
    state.borrowed.Nodup ∧ state.borrowed.length ≤ count
  all : ∃ state, Reached processors count parallelCount state ∧ state.borrowed.length = count

/-- Without equal shares the last objects are counted and in no list. -/
theorem reaches_stuck (someProcessor : 0 < processors)
    (remainder : count % listCountOf processors parallelCount ≠ 0) :
    ∃ state, Reached processors count parallelCount state ∧
      ∀ fuel, borrowObj fuel state.pool = none := by
  have positive := listCountOf_pos someProcessor parallelCount
  obtain ⟨state, reached, empty⟩ := reaches_empty someProcessor
    (.init rfl : Reached processors count parallelCount _) _ rfl
  obtain ⟨queues, inv⟩ := reached_inv someProcessor reached
  have counted := inv.counted
  refine ⟨state, reached, ?_⟩
  intro fuel
  have stuck : findConsumer fuel state.pool 0 = none := by
    apply inv.findConsumer_stuck _ (by omega) fuel 0 positive
    intro list below
    by_contra available
    have stocked := inv.sum_pos_iff.mpr ⟨list, below, Nat.pos_of_ne_zero available⟩
    omega
  unfold borrowObj
  rw [stuck]
  rfl

/-- `ObjectPool` is exact just when the list count divides the count. -/
theorem objectPool_exact_iff (someProcessor : 0 < processors) :
    Exact processors count parallelCount ↔ listCountOf processors parallelCount ∣ count := by
  have positive := listCountOf_pos someProcessor parallelCount
  constructor
  · intro exact_
    by_contra indivisible
    obtain ⟨state, reached, stuck⟩ := reaches_stuck someProcessor
      (fun zero => indivisible (Nat.dvd_of_mod_eq_zero zero))
    obtain ⟨fuel, result, ends⟩ := exact_.terminates state reached
    rw [stuck fuel] at ends
    cases ends
  · intro divides
    have remainder : count % listCountOf processors parallelCount = 0 :=
      Nat.mod_eq_zero_of_dvd divides
    refine ⟨?_, ?_, ?_, ?_, ?_, ?_⟩
    · intro state reached
      obtain ⟨queues, inv⟩ := reached_inv someProcessor reached
      have counted := inv.counted
      exact inv.borrowObj_ends positive (by omega)
    · intro state fuel pool reached result
      obtain ⟨queues, inv⟩ := reached_inv someProcessor reached
      have conserved := inv.conserved
      cases inv.borrowObj_cases positive result with
      | refused none_left => omega
    · intro state fuel object pool reached result
      obtain ⟨queues, inv⟩ := reached_inv someProcessor reached
      cases inv.borrowObj_cases positive result with
      | taken absent list index _ =>
          rw [inv.lists]
          exact ⟨absent, list, index⟩
    · intro state reached
      obtain ⟨queues, inv⟩ := reached_inv someProcessor reached
      have counted := inv.counted
      omega
    · intro state reached
      obtain ⟨queues, inv⟩ := reached_inv someProcessor reached
      have conserved := inv.conserved
      exact ⟨inv.borrowed_nodup, by omega⟩
    · obtain ⟨state, reached, empty⟩ := reaches_empty someProcessor
        (.init rfl : Reached processors count parallelCount _) _ rfl
      obtain ⟨queues, inv⟩ := reached_inv someProcessor reached
      have conserved := inv.conserved
      have counted := inv.counted
      exact ⟨state, reached, by omega⟩

/-- Four objects in two lists. -/
theorem objectPool_exact_four : 0 < 8 ∧ (Exact 8 4 2 ↔ listCountOf 8 2 ∣ 4) :=
  ⟨by decide, objectPool_exact_iff (by decide)⟩

/-- With three objects in two lists the third call of `borrowObj` does not return. -/
theorem objectPool_stuck : ¬ Exact 8 3 2 := by
  intro exact_
  obtain ⟨state, reached, stuck⟩ :=
    (reaches_stuck (by decide) (by decide) :
      ∃ state, Reached 8 3 2 state ∧ ∀ fuel, borrowObj fuel state.pool = none)
  obtain ⟨fuel, result, ends⟩ := exact_.terminates state reached
  rw [stuck fuel] at ends
  cases ends

end MallocSurvey.Uray
