import MallocSurvey.Ltalloc.SystemRuns

/-! # Failures of the system

What a failed allocation of a chunk, of a large block or of a page of trie nodes leaves. -/

namespace MallocSurvey.Ltalloc

open Library

variable {threads pageSize : Nat} {state next : State threads} {thread : Fin threads}

/-- The system has no memory for a thread that is in `ltmalloc`. -/
def FailsFor (thread : Fin threads) (event : Event threads) : Prop :=
  event = .chunkFails thread ∨ event = .largeFails thread ∨ event = .pageFails thread

/-- What `ltmalloc` and `ltfree` rely on, and that all that is mapped is reachable. -/
structure Intact (pageSize : Nat) (state : State threads) : Prop where
  law : ∀ sizeClass thread, state.fetching sizeClass thread = false →
    CounterLaw sizeClass ((state.classes sizeClass).caches thread)
  batches : ∀ sizeClass, ∀ batch ∈ (state.classes sizeClass).central.batches sizeClass,
    batch.length = batchSize sizeClass + 1
  places : ∀ sizeClass, ∃ tails, (state.classes sizeClass).live +
      (state.classes sizeClass).cached +
      (state.classes sizeClass).central.stock sizeClass tails + state.detached sizeClass =
    (state.classes sizeClass).blocks sizeClass
  mapped : state.mapped = state.owned pageSize

theorem Inv.intact (inv : Inv pageSize state) : Intact pageSize state where
  law sizeClass thread notFetching := by
    by_cases served : Served sizeClass
    · obtain ⟨_, classInv⟩ := inv.classInv sizeClass served
      exact classInv.law notFetching
    · rw [inv.unserved sizeClass served]
      exact .inl rfl
  batches sizeClass := by
    by_cases served : Served sizeClass
    · obtain ⟨_, classInv⟩ := inv.classInv sizeClass served
      exact classInv.central.batches_full
    · rw [inv.unserved sizeClass served]
      exact (classInv_initial sizeClass state.lastWord).central.batches_full
  places sizeClass := by
    by_cases served : Served sizeClass
    · obtain ⟨tails, classInv⟩ := inv.classInv sizeClass served
      exact ⟨tails, classInv.ledger⟩
    · rw [inv.unserved sizeClass served, inv.notDetached served]
      exact ⟨[], (classInv_initial sizeClass state.lastWord).ledger⟩
  mapped := inv.ledger

/-! ## The state after a failure -/

/-- After a failed chunk allocation the counter is one and the list empty. -/
theorem Inv.chunkFails_iff (inv : Inv pageSize state) {sizeClass : Nat}
    (isStatus : state.status thread = .allocatingChunk sizeClass) :
    Intact pageSize (state.finish thread 0) ↔ batchSize sizeClass = 0 := by
  constructor
  · intro intact
    have served : Served sizeClass := by
      have statusInv := inv.status thread
      rwa [isStatus] at statusInv
    obtain ⟨_, classInv⟩ := inv.classInv sizeClass served
    have isFetching : state.fetching sizeClass thread = true := by
      rw [State.fetching, isStatus]
      exact beq_self_eq_true _
    have cache := classInv.caches thread
    rw [CacheInv, if_pos isFetching] at cache
    have nowIdle : (state.finish thread 0).status thread = .idle := Function.update_self ..
    have law := intact.law sizeClass thread (by rw [State.fetching, nowIdle]; rfl)
    change CounterLaw sizeClass ((state.classes sizeClass).caches thread) at law
    rw [cache] at law
    rcases law with isInitial | ⟨counter, _⟩
    · cases isInitial
    · simp only [ThreadCache.fetching, List.length_nil] at counter
      omega
  · exact fun oneBlock => (inv.chunkFails isStatus oneBlock).intact

/-- After a failed page allocation nobody refers to the large block. -/
theorem Inv.pageFails_leaks (inv : Inv pageSize state) {block size : Nat}
    (isStatus : state.status thread = .allocatingPage block size) :
    ¬ Intact pageSize (state.finish thread 0) := by
  intro intact
  have mapped : state.mapped = (state.finish thread 0).owned pageSize := intact.mapped
  have heldChange := @held_update threads state (state.finish thread 0) thread .idle rfl pageSize
  rw [isStatus] at heldChange
  have classes : (state.finish thread 0).classRegions = state.classRegions :=
    add_right_cancel (@classRegions_congr threads state (state.finish thread 0) rfl)
  rw [inv.ledger, State.owned, State.owned, classes] at mapped
  have held : state.held pageSize = (state.finish thread 0).held pageSize := by
    have samePad : (state.finish thread 0).padChunks = state.padChunks := rfl
    have sameLarge : (state.finish thread 0).large = state.large := rfl
    have samePages : (state.finish thread 0).pageRegions pageSize =
      state.pageRegions pageSize := rfl
    rw [samePad, sameLarge, samePages] at mapped
    exact add_left_cancel (add_right_cancel (add_right_cancel (add_right_cancel mapped)))
  rw [held] at heldChange
  have cards := congrArg Multiset.card (add_left_cancel heldChange)
  exact absurd cards Nat.one_ne_zero

def start : State 1 := .initial 1 (fun _ => 0) (fun _ => 0) (fun _ => none)

/-- The only thread asks for 16 bytes and needs a chunk. -/
def firstWaiting : State 1 := start.fetched 0 (getSizeClass 16) (.needChunk .fetching)

theorem start_malloc : (system 1 4096).step start (.malloc 0 16) = some firstWaiting := by
  change start.malloc 0 16 = _
  have isMalloc : start.malloc 0 16 = start.mallocBlock 0 (getSizeClass 16) := by
    unfold State.malloc
    exact if_pos (.inr ⟨by decide, by decide⟩)
  rw [isMalloc]
  rfl

theorem start_serves : Harmless start (.malloc 0 16) :=
  fun takes => absurd rfl takes.2.2.2

theorem firstWaiting_reached : (system 1 4096).Reachable Harmless firstWaiting := by
  have isStart : (system 1 4096).Reachable Harmless start := .init ⟨_, _, _, rfl⟩
  have enabled : (system 1 4096).Enabled start (.malloc 0 16) := ⟨rfl, by decide⟩
  exact isStart.step enabled start_serves start_malloc

end MallocSurvey.Ltalloc
