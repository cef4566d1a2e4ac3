import MallocSurvey.Ltalloc.Adjunction
import MallocSurvey.Ltalloc.Effects
import MallocSurvey.Ltalloc.LargeBlocks
import MallocSurvey.Ltalloc.SystemRuns

/-! # Whole calls of `ltmalloc`

A call begins with its first locked section and ends when its thread is idle again. In
between other threads take steps of their own. -/

namespace MallocSurvey.Ltalloc

open Library

variable {threads pageSize : Nat} {state next : State threads} {thread : Fin threads}

/-! ## Steps of other threads -/

/-- Other threads are where they were, with the results they had. -/
structure OthersSame (state next : State threads) (thread : Fin threads) : Prop where
  status : ∀ other, other ≠ thread → next.status other = state.status other
  result : ∀ other, other ≠ thread → next.result other = state.result other

theorem step_othersSame {event : Event threads} (result : step pageSize state event = some next) :
    OthersSame state next event.actor := by
  obtain ⟨⟨status, changed, _⟩, ⟨pointer, results⟩, _⟩ := step_effect result
  constructor
  · intro other different
    rw [changed, Function.update_of_ne different]
  · intro other different
    rw [results, Function.update_of_ne different]

/-! ## What a call returns -/

/-- Where the thread of a request is, or what it has been given. -/
def Serving (request : Nat) (state : State threads) (thread : Fin threads) : Prop :=
  match state.status thread with
  | .allocatingChunk sizeClass | .insertingChunk sizeClass _ =>
      request ≤ maxBlockSize ∧ sizeClass = requestClass request
  | .allocatingLarge size | .registering _ size | .allocatingPage _ size
  | .registeringWithPage _ size _ => maxBlockSize < request ∧ size = largeSize request
  | .idle =>
      state.result thread = 0 ∨
        request ≤ maxBlockSize ∧
          state.result thread ∈ (state.classes (requestClass request)).live ∨
        maxBlockSize < request ∧ (state.result thread, largeSize request) ∈ state.large
  | _ => False

/-- A call of `ltmalloc` from `state` to `next`. -/
structure Returns (pageSize : Nat) (state : State threads) (thread : Fin threads)
    (request : Nat) (next : State threads) : Prop where
  begins : ∃ first, Enabled pageSize state (.malloc thread request) ∧
    Harmless state (.malloc thread request) ∧
    step pageSize state (.malloc thread request) = some first ∧
    (system threads pageSize).Leads
      (fun state event => Harmless state event ∧ state.status thread ≠ .idle) first next
  ends : next.status thread = .idle

variable {request : Nat}

theorem Inv.malloc_serving (inv : Inv pageSize state)
    (enabled : Enabled pageSize state (.malloc thread request))
    (harmless : Harmless state (.malloc thread request))
    (result : state.malloc thread request = some next) :
    Serving request next thread := by
  obtain ⟨isIdle, inRange⟩ := enabled
  by_cases large : maxBlockSize < request
  · obtain ⟨outcome, _⟩ := inv.mallocLarge isIdle large inRange
    rw [← Option.some.inj (outcome.symm.trans result), Serving, setStatus_status]
    exact ⟨large, rfl⟩
  · have small : request ≤ maxBlockSize := Nat.le_of_not_lt large
    obtain ⟨isBlock, served⟩ := @Inv.malloc_eq _ _ _ thread inv _ small
    obtain ⟨other, outcome, _, place⟩ := inv.mallocBlock isIdle served harmless
    have isNext : other = next := Option.some.inj ((isBlock.trans outcome).symm.trans result)
    subst isNext
    rcases place with waiting | ⟨nowIdle, _, isLive⟩
    · rw [Serving, waiting]
      exact ⟨small, rfl⟩
    · rw [Serving, nowIdle]
      exact .inr (.inl ⟨small, isLive⟩)

/-- The steps of a call after its first one. -/
def Event.Continues : Event threads → Prop
  | .allocateChunk .. | .chunkFails _ | .insertChunk _ | .allocateLarge .. | .largeFails _
  | .register _ | .allocatePage .. | .pageFails _ | .registerWithPage _ => True
  | _ => False

/-- A thread that serves a request goes on with it. -/
theorem Serving.continues {event : Event threads} (serving : Serving request state event.actor)
    (enabled : Enabled pageSize state event) (busy : state.status event.actor ≠ .idle) :
    event.Continues := by
  unfold Serving at serving
  cases event with
  | malloc thread size => exact absurd enabled.1 busy
  | free thread block => exact absurd enabled.1 busy
  | exit thread => exact absurd enabled busy
  | squeeze thread padsz => exact absurd enabled busy
  | unmapLarge thread =>
      obtain ⟨block, size, isStatus⟩ := enabled
      simp only [Event.actor, isStatus] at serving
  | releaseNext thread =>
      obtain ⟨first, isStatus⟩ := enabled
      simp only [Event.actor, isStatus] at serving
  | detachLists thread =>
      obtain ⟨padsz, sizeClass, isStatus⟩ := enabled
      simp only [Event.actor, isStatus] at serving
  | giveBack thread counted =>
      obtain ⟨padsz, sizeClass, lists, isStatus, _⟩ := enabled
      simp only [Event.actor, isStatus] at serving
  | putOff thread =>
      obtain ⟨padsz, sizeClass, freeChunks, isStatus⟩ := enabled
      simp only [Event.actor, isStatus] at serving
  | unmapChunk thread =>
      obtain ⟨padsz, sizeClass, freeChunks, isStatus⟩ := enabled
      simp only [Event.actor, isStatus] at serving
  | _ => trivial

theorem finish_status (pointer : Nat) : (state.finish thread pointer).status thread = .idle :=
  Function.update_self ..

theorem finish_result (pointer : Nat) :
    (state.finish thread pointer).result thread = pointer :=
  Function.update_self ..

theorem finish_serving : Serving request (state.finish thread 0) thread := by
  rw [Serving, finish_status]
  exact .inl (finish_result 0)

/-- A step of the thread itself. -/
theorem Inv.step_serving (inv : Inv pageSize state) (ok : PageSize pageSize)
    {event : Event threads} (enabled : Enabled pageSize state event)
    (harmless : Harmless state event) (busy : state.status event.actor ≠ .idle)
    (serving : Serving request state event.actor)
    (result : Ltalloc.step pageSize state event = some next) :
    Serving request next event.actor := by
  have continues := serving.continues enabled busy
  cases event with
  | allocateChunk thread region =>
      obtain ⟨⟨sizeClass, isStatus⟩, fresh⟩ := enabled
      obtain ⟨other, chunk, outcome, _, _, status⟩ := inv.allocateChunk ok isStatus fresh
      have isNext : other = next := Option.some.inj (outcome.symm.trans result)
      change Serving request state thread at serving
      rw [Serving, isStatus] at serving
      change Serving request next thread
      rw [← isNext, Serving, status, Function.update_self]
      exact serving
  | chunkFails thread =>
      rw [← Option.some.inj result]
      exact finish_serving
  | insertChunk thread =>
      obtain ⟨sizeClass, chunk, isStatus⟩ := enabled
      obtain ⟨other, outcome, _, status, _, live⟩ := inv.insertChunk isStatus
      have isNext : other = next := Option.some.inj (outcome.symm.trans result)
      change Serving request state thread at serving
      rw [Serving, isStatus] at serving
      change Serving request next thread
      rw [← isNext, Serving, status, Function.update_self]
      refine .inr (.inl ⟨serving.1, ?_⟩)
      rw [← serving.2, live]
      exact Multiset.mem_cons_self ..
  | allocateLarge thread region =>
      obtain ⟨size, isStatus, positive, fresh⟩ := enabled
      obtain ⟨other, outcome, _, status, _⟩ := inv.allocateLarge ok isStatus positive fresh
      have isNext : other = next := Option.some.inj (outcome.symm.trans result)
      change Serving request state thread at serving
      rw [Serving, isStatus] at serving
      change Serving request next thread
      rw [← isNext, Serving, status, Function.update_self]
      exact serving
  | largeFails thread =>
      rw [← Option.some.inj result]
      exact finish_serving
  | register thread =>
      obtain ⟨block, size, isStatus⟩ := enabled
      obtain ⟨other, outcome, _, place⟩ := inv.register ok isStatus
      have isNext : other = next := Option.some.inj (outcome.symm.trans result)
      change Serving request state thread at serving
      rw [Serving, isStatus] at serving
      change Serving request next thread
      rcases place with ⟨status, _⟩ | ⟨status, isResult, large⟩
      · rw [← isNext, Serving, status, Function.update_self]
        exact serving
      · rw [← isNext, Serving, status, Function.update_self, isResult, large, ← serving.2]
        exact .inr (.inr ⟨serving.1, Multiset.mem_cons_self ..⟩)
  | allocatePage thread region =>
      obtain ⟨⟨block, size, isStatus⟩, fresh⟩ := enabled
      obtain ⟨other, outcome, _, status, _⟩ := inv.allocatePage ok isStatus fresh
      have isNext : other = next := Option.some.inj (outcome.symm.trans result)
      change Serving request state thread at serving
      rw [Serving, isStatus] at serving
      change Serving request next thread
      rw [← isNext, Serving, status, Function.update_self]
      exact serving
  | pageFails thread => exact harmless.elim
  | registerWithPage thread =>
      obtain ⟨block, size, page, isStatus⟩ := enabled
      obtain ⟨other, outcome, _, status, isResult, large⟩ := inv.registerWithPage ok isStatus
      have isNext : other = next := Option.some.inj (outcome.symm.trans result)
      change Serving request state thread at serving
      rw [Serving, isStatus] at serving
      change Serving request next thread
      rw [← isNext, Serving, status, Function.update_self, isResult, large, ← serving.2]
      exact .inr (.inr ⟨serving.1, Multiset.mem_cons_self ..⟩)
  | _ => exact continues.elim

/-- A busy thread does not look at what the steps of others change. -/
theorem Serving.others {event : Event threads} (serving : Serving request state thread)
    (busy : state.status thread ≠ .idle) (different : thread ≠ event.actor)
    (result : Ltalloc.step pageSize state event = some next) :
    Serving request next thread := by
  have same := (step_othersSame result).status thread different
  unfold Serving at serving ⊢
  rw [same]
  cases isStatus : state.status thread with
  | idle => exact absurd isStatus busy
  | _ =>
      rw [isStatus] at serving
      exact serving

/-- A call leads to a state of the invariant in which its request has been served. -/
theorem Returns.serving (ok : PageSize pageSize) (inv : Inv pageSize state)
    (returns : Returns pageSize state thread request next) :
    Inv pageSize next ∧ Serving request next thread := by
  obtain ⟨first, enabled, harmless, result, leads⟩ := returns.begins
  have firstInv : Inv pageSize first := by
    obtain ⟨_, stepped, newInv⟩ := inv.step ok enabled harmless
    rwa [← Option.some.inj (stepped.symm.trans result)]
  have firstServing := inv.malloc_serving enabled harmless result
  refine @Machine.Leads.invariant _ _ _ _ (fun state =>
    Inv pageSize state ∧ Serving request state thread) ?_ _ _ leads ⟨firstInv, firstServing⟩
  intro state event next ⟨inv, serving⟩ enabled ⟨harmless, busy⟩ result
  obtain ⟨_, stepped, newInv⟩ := inv.step ok enabled harmless
  rw [Option.some.inj (stepped.symm.trans result)] at newInv
  refine ⟨newInv, ?_⟩
  by_cases own : thread = event.actor
  · rw [own] at busy serving ⊢
    exact inv.step_serving ok enabled harmless busy serving result
  · exact serving.others busy own result

/-! ## Usable bytes -/

theorem Inv.msize_live (inv : Inv pageSize state) {sizeClass block : Nat}
    (isLive : block ∈ (state.classes sizeClass).live) :
    state.msize block = some (classToSize sizeClass) := by
  obtain ⟨isChunk, inside, _⟩ := inv.chunk_of_live isLive
  rw [State.msize, if_pos inside, inv.headers sizeClass _ isChunk]

theorem Inv.msize_large (inv : Inv pageSize state) {block size : Nat}
    (isLarge : (block, size) ∈ state.large) : state.msize block = some size := by
  have region := inv.large _ isLarge
  obtain ⟨_, _, _, _, registryInv, holds, _⟩ := inv.registry
  rw [State.msize, if_neg (not_not.mpr region.aligned), if_neg region.nonzero,
    registryInv.represents.lookup_eq (holds _ isLarge)]
  exact congrArg some region.toNat_size

end MallocSurvey.Ltalloc
