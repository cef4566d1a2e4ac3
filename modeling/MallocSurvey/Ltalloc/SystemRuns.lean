import MallocSurvey.Ltalloc.SqueezeEvents

/-! # Runs that keep the invariant

An enabled event succeeds and keeps the invariant unless it is one of four: an
allocation from loose blocks that the wrapped `freeListSize` misleads, a chunk that
the system does not map, a page of trie nodes that it does not map, and lists of
which `ltsqueeze` loses blocks. -/

namespace MallocSurvey.Ltalloc

open Library

variable {threads pageSize : Nat} {state next : State threads} {thread : Fin threads}

/-- A failed chunk allocation leaves a counter of one, which is right for an empty
cache with batches of one block. -/
def ChunkFailureHarmless (state : State threads) (thread : Fin threads) : Prop :=
  ∀ sizeClass, state.status thread = .allocatingChunk sizeClass → batchSize sizeClass = 0

/-- The two sections of `ltsqueeze` lose no block of the class. -/
def GiveBackHarmless (state : State threads) (thread : Fin threads) (counted : Bool) : Prop :=
  ∀ padsz sizeClass lists, state.status thread = .detached padsz sizeClass lists →
    LosesNothing sizeClass lists (state.classes sizeClass).central.freeList counted

/-- The event is none of those that break the invariant. -/
def Harmless (state : State threads) : Event threads → Prop
  | .malloc thread size => ServesRequest state thread size
  | .chunkFails thread => ChunkFailureHarmless state thread
  | .pageFails _ => False
  | .giveBack thread counted => GiveBackHarmless state thread counted
  | _ => True

/-! ## Classes that no request gets -/

theorem Inv.notFetching (inv : Inv pageSize state) {sizeClass : Nat}
    (notServed : ¬ Served sizeClass) (thread : Fin threads) :
    state.fetching sizeClass thread = false := by
  cases isFetching : state.fetching sizeClass thread with
  | false => rfl
  | true =>
      have statusInv := inv.status thread
      rw [State.fetching] at isFetching
      cases isStatus : state.status thread with
      | allocatingChunk other =>
          rw [isStatus] at isFetching statusInv
          exact absurd (eq_of_beq isFetching ▸ statusInv) notServed
      | insertingChunk other chunk =>
          rw [isStatus] at isFetching statusInv
          exact absurd (eq_of_beq isFetching ▸ statusInv.1) notServed
      | _ =>
          rw [isStatus] at isFetching
          cases isFetching

theorem Inv.notDetached (inv : Inv pageSize state) {sizeClass : Nat}
    (notServed : ¬ Served sizeClass) : state.detached sizeClass = 0 := by
  refine Finset.sum_eq_zero fun thread _ => ?_
  have statusInv := inv.status thread
  cases isStatus : state.status thread with
  | detached padsz other lists =>
      rw [isStatus] at statusInv
      exact if_neg fun equal : other = sizeClass => notServed (equal ▸ statusInv.served)
  | _ => rfl

/-! ## Steps -/

theorem Inv.chunkFails (inv : Inv pageSize state) {sizeClass : Nat}
    (isStatus : state.status thread = .allocatingChunk sizeClass)
    (oneBlock : batchSize sizeClass = 0) : Inv pageSize (state.finish thread 0) := by
  have served : Served sizeClass := by
    have statusInv := inv.status thread
    rwa [isStatus] at statusInv
  obtain ⟨tails, classInv⟩ := inv.classInv sizeClass served
  have isFetching : state.fetching sizeClass thread = true := by
    rw [State.fetching, isStatus]
    exact beq_self_eq_true _
  have cache : (state.classes sizeClass).caches thread = .fetching := by
    have cacheInv := classInv.caches thread
    rwa [CacheInv, if_pos isFetching] at cacheInv
  have law : CounterLaw sizeClass .fetching := by
    refine .inr ⟨?_, Int.one_nonneg, .inl rfl⟩
    rw [oneBlock]
    rfl
  refine @Inv.moveBlocks threads pageSize state _ thread .idle sizeClass
    (state.classes sizeClass) inv served (classes_update_self rfl sizeClass) rfl
    ⟨rfl, rfl, rfl, rfl, rfl, rfl, rfl⟩ rfl ?_ (by rw [isStatus]; rfl) trivial ⟨tails, ?_⟩
  · intro other different
    rw [isStatus]
    exact ⟨(beq_false_of_ne different.symm).symm, rfl⟩
  · have sameDetached : (state.finish thread 0).detached sizeClass = state.detached sizeClass :=
      @detached_same threads state _ thread .idle sizeClass rfl (by rw [isStatus]; rfl)
    rw [sameDetached]
    refine ⟨?_, classInv.central, classInv.nodup, classInv.ledger⟩
    intro other
    by_cases same : other = thread
    · subst same
      rw [CacheInv, Function.update_self, cache]
      exact law
    · rw [Function.update_of_ne same]
      exact classInv.caches other

/-- One step of a run without such events. -/
theorem Inv.step (inv : Inv pageSize state) (ok : PageSize pageSize) {event : Event threads}
    (enabled : Enabled pageSize state event) (harmless : Harmless state event) :
    ∃ next, Ltalloc.step pageSize state event = some next ∧ Inv pageSize next := by
  cases event with
  | malloc thread size =>
      obtain ⟨next, result, newInv, _⟩ := inv.malloc enabled.1 enabled.2 harmless
      exact ⟨next, result, newInv⟩
  | allocateChunk thread region =>
      obtain ⟨⟨sizeClass, waiting⟩, fresh⟩ := enabled
      obtain ⟨next, _, result, newInv, _⟩ := inv.allocateChunk ok waiting fresh
      exact ⟨next, result, newInv⟩
  | chunkFails thread =>
      obtain ⟨⟨sizeClass, waiting⟩, _⟩ := enabled
      exact ⟨_, rfl, inv.chunkFails waiting (harmless sizeClass waiting)⟩
  | insertChunk thread =>
      obtain ⟨sizeClass, chunk, isStatus⟩ := enabled
      obtain ⟨next, result, newInv, _⟩ := inv.insertChunk isStatus
      exact ⟨next, result, newInv⟩
  | allocateLarge thread region =>
      obtain ⟨size, isStatus, positive, fresh⟩ := enabled
      obtain ⟨next, result, newInv, _⟩ := inv.allocateLarge ok isStatus positive fresh
      exact ⟨next, result, newInv⟩
  | largeFails thread =>
      obtain ⟨size, isStatus⟩ := enabled
      exact ⟨_, rfl, inv.largeFails isStatus⟩
  | register thread =>
      obtain ⟨block, size, isStatus⟩ := enabled
      obtain ⟨next, result, newInv, _⟩ := inv.register ok isStatus
      exact ⟨next, result, newInv⟩
  | allocatePage thread region =>
      obtain ⟨⟨block, size, isStatus⟩, fresh⟩ := enabled
      obtain ⟨next, result, newInv, _⟩ := inv.allocatePage ok isStatus fresh
      exact ⟨next, result, newInv⟩
  | pageFails thread => exact harmless.elim
  | registerWithPage thread =>
      obtain ⟨block, size, page, isStatus⟩ := enabled
      obtain ⟨next, result, newInv, _⟩ := inv.registerWithPage ok isStatus
      exact ⟨next, result, newInv⟩
  | free thread block =>
      obtain ⟨isIdle, isNull | ⟨sizeClass, isLive⟩ | ⟨size, isLarge⟩⟩ := enabled
      · refine ⟨state, ?_, inv⟩
        rw [isNull]
        rfl
      · obtain ⟨next, result, newInv, _⟩ := inv.freeSmall isIdle isLive
        exact ⟨next, result, newInv⟩
      · obtain ⟨next, result, newInv, _⟩ := inv.freeLarge ok isIdle isLarge
        exact ⟨next, result, newInv⟩
  | unmapLarge thread =>
      obtain ⟨block, size, isStatus⟩ := enabled
      obtain ⟨_, next, result, newInv, _⟩ := inv.unmapLarge isStatus
      exact ⟨next, result, newInv⟩
  | exit thread => exact ⟨_, rfl, inv.exit enabled⟩
  | releaseNext thread =>
      obtain ⟨first, isStatus⟩ := enabled
      obtain ⟨next, _, result, newInv, _⟩ := inv.releaseNext isStatus
      exact ⟨next, result, newInv⟩
  | squeeze thread padsz => exact ⟨_, rfl, inv.squeeze enabled⟩
  | detachLists thread =>
      obtain ⟨padsz, sizeClass, isStatus⟩ := enabled
      exact inv.detachLists isStatus
  | giveBack thread counted =>
      obtain ⟨padsz, sizeClass, lists, isStatus, _⟩ := enabled
      obtain ⟨next, _, _, result, newInv, _⟩ :=
        inv.giveBack isStatus (harmless padsz sizeClass lists isStatus)
      exact ⟨next, result, newInv⟩
  | putOff thread =>
      obtain ⟨padsz, sizeClass, freeChunks, isStatus⟩ := enabled
      exact inv.putOff isStatus
  | unmapChunk thread =>
      obtain ⟨padsz, sizeClass, freeChunks, isStatus⟩ := enabled
      exact (inv.unmapChunk isStatus).2

/-- The invariant holds along every run of harmless events. -/
theorem inv_reachable (ok : PageSize pageSize)
    (reachable : (system threads pageSize).Reachable Harmless state) : Inv pageSize state := by
  refine reachable.invariant ?_ ?_
  · intro state ⟨headers, lastWord, nodes, isInit⟩
    rw [isInit]
    exact inv_initial threads pageSize headers lastWord nodes
  · intro state event next inv enabled harmless result
    obtain ⟨_, stepped, newInv⟩ := inv.step ok enabled harmless
    rw [Option.some.inj (stepped.symm.trans result)] at newInv
    exact newInv

end MallocSurvey.Ltalloc

/-! # Runs that are computed

A list of events with a decided check that each of them is enabled. -/

namespace MallocSurvey.Ltalloc

open Library

variable {threads : Nat} {state next : State threads}

instance (alignment region size : Nat) (mapped : Multiset (Nat × Nat)) :
    Decidable (IsFresh alignment region size mapped) :=
  decidable_of_iff (region % alignment = 0 ∧ region ≠ 0 ∧ region + size < 2 ^ 64 ∧
      ∀ other ∈ mapped, region + size ≤ other.1 ∨ other.1 + other.2 ≤ region)
    ⟨fun ⟨aligned, nonzero, inRange, disjoint⟩ => ⟨aligned, nonzero, inRange, disjoint⟩,
      fun fresh => ⟨fresh.aligned, fresh.nonzero, fresh.inRange, fresh.disjoint⟩⟩

/-- Some enabled events, decided by computing; none of them finds a loose block. -/
def permits (state : State threads) : Event threads → Bool
  | .malloc thread size => state.status thread = .idle ∧ size < 2 ^ 64 ∧
      (state.classes (requestClass size)).central.freeList = []
  | .allocateChunk thread region =>
      match state.status thread with
      | .allocatingChunk _ => IsFresh chunkSize region chunkSize state.mapped
      | _ => false
  | .insertChunk thread =>
      match state.status thread with
      | .insertingChunk _ _ => true
      | _ => false
  | .free thread block =>
      state.status thread = .idle ∧
        block ∈ (state.classes (state.headers (block / chunkSize * chunkSize))).live
  | .exit thread | .squeeze thread _ => state.status thread = .idle
  | .releaseNext thread =>
      match state.status thread with
      | .exiting _ => true
      | _ => false
  | .detachLists thread =>
      match state.status thread with
      | .squeezing _ _ => true
      | _ => false
  | .giveBack thread counted =>
      match state.status thread with
      | .detached _ _ _ => counted
      | _ => false
  | _ => false

theorem permits_enabled {pageSize : Nat} {event : Event threads}
    (permitted : permits state event = true) : Enabled pageSize state event := by
  cases event with
  | malloc thread size =>
      obtain ⟨isIdle, inRange, _⟩ : state.status thread = .idle ∧ size < 2 ^ 64 ∧
        (state.classes (requestClass size)).central.freeList = [] := of_decide_eq_true permitted
      exact ⟨isIdle, inRange⟩
  | allocateChunk thread region =>
      simp only [permits] at permitted
      split at permitted
      · next sizeClass isStatus =>
          exact ⟨⟨sizeClass, isStatus⟩, fun _ => of_decide_eq_true permitted⟩
      · cases permitted
  | insertChunk thread =>
      simp only [permits] at permitted
      split at permitted
      · next sizeClass chunk isStatus => exact ⟨sizeClass, chunk, isStatus⟩
      · cases permitted
  | free thread block =>
      obtain ⟨isIdle, isLive⟩ := of_decide_eq_true permitted
      exact ⟨isIdle, .inr (.inl ⟨_, isLive⟩)⟩
  | exit thread =>
      have isIdle : state.status thread = .idle := of_decide_eq_true permitted
      exact isIdle
  | squeeze thread padsz =>
      have isIdle : state.status thread = .idle := of_decide_eq_true permitted
      exact isIdle
  | releaseNext thread =>
      simp only [permits] at permitted
      split at permitted
      · next first isStatus => exact ⟨first, isStatus⟩
      · cases permitted
  | detachLists thread =>
      simp only [permits] at permitted
      split at permitted
      · next padsz sizeClass isStatus => exact ⟨padsz, sizeClass, isStatus⟩
      · cases permitted
  | giveBack thread counted =>
      simp only [permits] at permitted
      split at permitted
      · next padsz sizeClass lists isStatus =>
          exact ⟨padsz, sizeClass, lists, isStatus, fun isFalse =>
            absurd (permitted.symm.trans isFalse) (by decide)⟩
      · cases permitted
  | _ => exact absurd permitted Bool.false_ne_true

/-- Only the second locked section may do harm. -/
theorem permits_harmless {event : Event threads} (permitted : permits state event = true)
    (notLast : ∀ thread counted, event ≠ .giveBack thread counted) : Harmless state event := by
  cases event with
  | malloc thread size =>
      obtain ⟨_, _, noLoose⟩ : state.status thread = .idle ∧ size < 2 ^ 64 ∧
        (state.classes (requestClass size)).central.freeList = [] := of_decide_eq_true permitted
      exact fun takes => absurd noLoose takes.2.2.2
  | chunkFails thread => exact absurd permitted Bool.false_ne_true
  | pageFails thread => exact absurd permitted Bool.false_ne_true
  | giveBack thread counted => exact absurd rfl (notLast thread counted)
  | _ => trivial

/-- The state after some events that are enabled. -/
def permittedRun (state : State threads) : List (Event threads) → Option (State threads)
  | [] => some state
  | event :: events =>
      if permits state event then do
        let middle ← step 4096 state event
        permittedRun middle events
      else none

theorem permittedRun_reached {allowed : State threads → Event threads → Prop}
    {events : List (Event threads)}
    (allows : ∀ event ∈ events, ∀ state, permits state event = true → allowed state event)
    (reached : (system threads 4096).Reachable allowed state)
    (result : permittedRun state events = some next) :
    (system threads 4096).Reachable allowed next := by
  induction events generalizing state with
  | nil =>
      cases result
      exact reached
  | cons event events induction =>
      unfold permittedRun at result
      split at result
      · next permitted =>
          obtain ⟨middle, stepped, rest⟩ := Option.bind_eq_some_iff.mp result
          refine induction (fun other member => allows other (List.mem_cons_of_mem _ member))
            (reached.step (permits_enabled permitted) ?_ stepped) rest
          exact allows event List.mem_cons_self state permitted
      · cases result

end MallocSurvey.Ltalloc
