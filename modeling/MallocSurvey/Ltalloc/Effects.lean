import MallocSurvey.Ltalloc.SystemInvariant

/-! # What a step can change

A step moves its own thread, and gives up a block only when it frees it. -/

namespace MallocSurvey.Ltalloc

open Library

variable {threads pageSize : Nat} {state next : State threads} {thread : Fin threads}

def Event.actor : Event threads → Fin threads
  | .malloc thread _ | .allocateChunk thread _ | .chunkFails thread | .insertChunk thread
  | .allocateLarge thread _ | .largeFails thread | .register thread | .allocatePage thread _
  | .pageFails thread | .registerWithPage thread | .free thread _ | .unmapLarge thread
  | .exit thread | .releaseNext thread | .squeeze thread _ | .detachLists thread
  | .giveBack thread _ | .putOff thread | .unmapChunk thread => thread

/-- The thread holds no detached lists. -/
def Status.Attached (status : Status) : Prop :=
  ∀ sizeClass, status.detachedBlocks sizeClass = 0

structure Effect (state next : State threads) (event : Event threads) : Prop where
  status : ∃ status, next.status = Function.update state.status event.actor status ∧
    (status = state.status event.actor ∨ status.Attached ∨ ∃ thread, event = .detachLists thread)
  result : ∃ pointer, next.result = Function.update state.result event.actor pointer
  live : ∀ sizeClass, ∀ block ∈ (state.classes sizeClass).live,
    event ≠ .free event.actor block → block ∈ (next.classes sizeClass).live
  large : ∀ region ∈ state.large, event ≠ .free event.actor region.1 → region ∈ next.large

/-! ## Parts of steps -/

namespace Effect

variable {event : Event threads} {status : Status} {pointer : Nat}

/-- The thread goes on and all blocks in use stay in use. -/
theorem of_kept (changed : next.status = Function.update state.status event.actor status)
    (kind : status = state.status event.actor ∨ status.Attached ∨
      ∃ thread, event = .detachLists thread)
    (results : next.result = Function.update state.result event.actor pointer)
    (live : ∀ sizeClass, (state.classes sizeClass).live ≤ (next.classes sizeClass).live)
    (large : state.large ≤ next.large) : Effect state next event where
  status := ⟨status, changed, kind⟩
  result := ⟨pointer, results⟩
  live sizeClass _ member _ := Multiset.mem_of_le (live sizeClass) member
  large _ member _ := Multiset.mem_of_le large member

theorem of_moved (changed : next.status = Function.update state.status event.actor status)
    (attached : status.Attached) (results : next.result = state.result)
    (live : ∀ sizeClass, (next.classes sizeClass).live = (state.classes sizeClass).live)
    (large : next.large = state.large) : Effect state next event := by
  have same : next.result =
      Function.update state.result event.actor (state.result event.actor) := by
    rw [results, Function.update_eq_self]
  exact of_kept changed (.inr (.inl attached)) same (fun sizeClass => (live sizeClass).ge) large.ge

/-- The call returns. -/
theorem of_finished (changed : next.status = Function.update state.status event.actor .idle)
    (results : next.result = Function.update state.result event.actor pointer)
    (live : ∀ sizeClass, (state.classes sizeClass).live ≤ (next.classes sizeClass).live)
    (large : state.large ≤ next.large) : Effect state next event :=
  of_kept changed (.inr (.inl fun _ => rfl)) results live large

end Effect

theorem live_setClass {sizeClass : Nat} {cs : ClassState threads}
    (same : (state.classes sizeClass).live ≤ cs.live) (other : Nat) :
    (state.classes other).live ≤ ((state.setClass sizeClass cs).classes other).live := by
  change _ ≤ (Function.update state.classes sizeClass cs other).live
  by_cases own : other = sizeClass
  · rw [own, Function.update_self]
    exact same
  · rw [Function.update_of_ne own]

theorem live_setClass_eq {sizeClass : Nat} {cs : ClassState threads}
    (same : cs.live = (state.classes sizeClass).live) (other : Nat) :
    ((state.setClass sizeClass cs).classes other).live = (state.classes other).live := by
  change (Function.update state.classes sizeClass cs other).live = _
  by_cases own : other = sizeClass
  · rw [own, Function.update_self, same]
  · rw [Function.update_of_ne own]

/-- The end of a locked section, in which `middle` has the blocks of `state`. -/
theorem fetched_effect {event : Event threads} {middle : State threads} (sizeClass : Nat)
    (outcome : Fetched) (status : middle.status = state.status)
    (results : middle.result = state.result)
    (live : ∀ other, (middle.classes other).live = (state.classes other).live)
    (large : middle.large = state.large) :
    Effect state (middle.fetched event.actor sizeClass outcome) event := by
  cases outcome with
  | block fb tc cc =>
      refine @Effect.of_finished _ _ _ _ fb ?_ ?_ ?_ large.ge
      · rw [← status]
        rfl
      · rw [← results]
        rfl
      · intro other
        rw [← live]
        exact live_setClass (Multiset.le_cons_self _ _) other
  | needChunk tc =>
      refine @Effect.of_moved _ _ _ _ (.allocatingChunk sizeClass) ?_ (fun _ => rfl) results ?_
        large
      · rw [← status]
        rfl
      · intro other
        rw [← live]
        exact @live_setClass_eq _ middle sizeClass { middle.classes sizeClass with
          caches := Function.update (middle.classes sizeClass).caches event.actor tc } rfl other

theorem nextSqueezed_effect {event : Event threads} {middle : State threads}
    (padsz sizeClass : Nat) (status : middle.status = state.status)
    (results : middle.result = state.result)
    (live : ∀ other, (middle.classes other).live = (state.classes other).live)
    (large : middle.large = state.large) :
    Effect state (middle.nextSqueezed event.actor padsz sizeClass) event := by
  unfold State.nextSqueezed
  refine @Effect.of_moved _ _ _ _ (if sizeClass + 1 < numberOfSizeClasses then
    .squeezing padsz (sizeClass + 1) else .idle) ?_ ?_ results live large
  · rw [← status]
    rfl
  · intro other
    split <;> rfl

/-! ## The steps -/

theorem malloc_effect {size : Nat} (result : state.malloc thread size = some next) :
    Effect state next (.malloc thread size) := by
  have fromBlock : ∀ sizeClass, state.mallocBlock thread sizeClass = some next →
      Effect state next (.malloc thread size) := by
    intro sizeClass fetches
    obtain ⟨outcome, _, isNext⟩ := Option.map_eq_some_iff.mp fetches
    rw [← isNext]
    exact @fetched_effect _ state (.malloc thread size) state _ _ rfl rfl (fun _ => rfl) rfl
  unfold State.malloc at result
  simp only at result
  split at result
  · exact fromBlock _ result
  · split at result
    · exact fromBlock _ result
    · rw [← Option.some.inj result]
      exact .of_moved rfl (fun _ => rfl) rfl (fun _ => rfl) rfl

theorem free_effect {block : Nat} (result : state.free thread block = some next) :
    Effect state next (.free thread block) := by
  have different : ∀ other, Event.free thread block ≠ .free thread other → other ≠ block :=
    fun other differs equal => differs (equal ▸ rfl)
  unfold State.free at result
  split at result
  · obtain ⟨⟨tc, cc⟩, _, isNext⟩ := Option.bind_eq_some_iff.mp result
    rw [← Option.some.inj isNext]
    refine ⟨⟨_, (Function.update_eq_self thread _).symm, .inl rfl⟩,
      ⟨_, (Function.update_eq_self thread _).symm⟩, ?_, fun _ member _ => member⟩
    intro sizeClass other isLive differs
    change other ∈ (Function.update state.classes _ _ sizeClass).live
    by_cases own : sizeClass = state.headers (block / chunkSize * chunkSize)
    · rw [own, Function.update_self]
      rw [own] at isLive
      exact (Multiset.mem_erase_of_ne (different other differs)).mpr isLive
    · rw [Function.update_of_ne own]
      exact isLive
  · split at result
    · rw [← Option.some.inj result]
      exact ⟨⟨_, (Function.update_eq_self thread _).symm, .inl rfl⟩,
        ⟨_, (Function.update_eq_self thread _).symm⟩, fun _ _ isLive _ => isLive,
        fun _ isLarge _ => isLarge⟩
    · obtain ⟨⟨registry, size⟩, _, isNext⟩ := Option.bind_eq_some_iff.mp result
      rw [← Option.some.inj isNext]
      refine ⟨⟨_, rfl, .inr (.inl fun _ => rfl)⟩,
        ⟨_, (Function.update_eq_self thread _).symm⟩, fun _ _ isLive _ => isLive, ?_⟩
      intro region isLarge differs
      exact (Multiset.mem_erase_of_ne fun equal =>
        different region.1 differs (congrArg Prod.fst equal)).mpr isLarge

theorem squeeze_effect {event : Event threads}
    (isSqueeze : (∃ thread, event = .detachLists thread) ∨
      (∃ thread counted, event = .giveBack thread counted) ∨
      (∃ thread, event = .putOff thread) ∨ ∃ thread, event = .unmapChunk thread)
    (result : step pageSize state event = some next) : Effect state next event := by
  obtain ⟨thread, rfl⟩ | ⟨thread, counted, rfl⟩ | ⟨thread, rfl⟩ | ⟨thread, rfl⟩ := isSqueeze
  · change state.detachLists thread = some next at result
    unfold State.detachLists at result
    split at result
    · simp only at result
      split at result
      · rw [← Option.some.inj result]
        exact @nextSqueezed_effect _ state (.detachLists thread) state _ _ rfl rfl
          (fun _ => rfl) rfl
      · rw [← Option.some.inj result]
        refine @Effect.of_kept _ _ _ (.detachLists thread) _ (state.result thread) rfl
          (.inr (.inr ⟨thread, rfl⟩)) (Function.update_eq_self _ _).symm ?_ le_rfl
        exact live_setClass le_rfl
    · cases result
  · change state.giveBack thread counted = some next at result
    unfold State.giveBack at result
    split at result
    · obtain ⟨⟨count, cc⟩, _, isNext⟩ := Option.bind_eq_some_iff.mp result
      rw [← Option.some.inj isNext]
      split
      · exact @Effect.of_moved _ _ _ (.giveBack thread counted) (.padding _ _ count.freeChunks)
          rfl (fun _ => rfl) rfl (live_setClass_eq rfl) rfl
      · exact @nextSqueezed_effect _ state (.giveBack thread counted) _ _ _ rfl rfl
          (live_setClass_eq rfl) rfl
    · cases result
  · change state.putOff thread = some next at result
    unfold State.putOff at result
    split at result
    · split at result
      · rw [← Option.some.inj result]
        exact .of_moved rfl (fun _ => rfl) rfl (fun _ => rfl) rfl
      · rw [← Option.some.inj result]
        exact .of_moved rfl (fun _ => rfl) rfl (fun _ => rfl) rfl
    · cases result
  · change state.unmapChunk thread = some next at result
    unfold State.unmapChunk at result
    split at result
    · rw [← Option.some.inj result]
      exact @nextSqueezed_effect _ state (.unmapChunk thread) state _ _ rfl rfl
        (fun _ => rfl) rfl
    · rw [← Option.some.inj result]
      exact .of_moved rfl (fun _ => rfl) rfl (fun _ => rfl) rfl
    · cases result

theorem step_effect {event : Event threads} (result : step pageSize state event = some next) :
    Effect state next event := by
  cases event with
  | malloc thread size => exact malloc_effect result
  | free thread block => exact free_effect result
  | detachLists thread => exact squeeze_effect (.inl ⟨thread, rfl⟩) result
  | giveBack thread counted => exact squeeze_effect (.inr (.inl ⟨thread, counted, rfl⟩)) result
  | putOff thread => exact squeeze_effect (.inr (.inr (.inl ⟨thread, rfl⟩))) result
  | unmapChunk thread => exact squeeze_effect (.inr (.inr (.inr ⟨thread, rfl⟩))) result
  | allocateChunk thread region =>
      change state.allocateChunk thread region = some next at result
      unfold State.allocateChunk at result
      split at result
      · rw [← Option.some.inj result]
        exact .of_moved rfl (fun _ => rfl) rfl (fun _ => rfl) rfl
      · rw [← Option.some.inj result]
        exact .of_moved rfl (fun _ => rfl) rfl (fun _ => rfl) rfl
      · cases result
  | insertChunk thread =>
      change state.insertChunk thread = some next at result
      unfold State.insertChunk at result
      split at result
      · obtain ⟨⟨outcome, lastWord⟩, _, isNext⟩ := Option.bind_eq_some_iff.mp result
        rw [← Option.some.inj isNext]
        refine @fetched_effect _ state (.insertChunk thread) _ _ outcome ?_ ?_ ?_ ?_
        · rfl
        · rfl
        · exact live_setClass_eq rfl
        · rfl
      · cases result
  | allocateLarge thread region =>
      change state.allocateLarge thread region = some next at result
      unfold State.allocateLarge at result
      split at result
      · rw [← Option.some.inj result]
        exact .of_moved rfl (fun _ => rfl) rfl (fun _ => rfl) rfl
      · cases result
  | register thread =>
      change state.register thread pageSize = some next at result
      unfold State.register at result
      split at result
      · obtain ⟨registry, _, isNext⟩ := Option.bind_eq_some_iff.mp result
        cases registry with
        | none =>
            rw [← Option.some.inj isNext]
            exact .of_moved rfl (fun _ => rfl) rfl (fun _ => rfl) rfl
        | some registry =>
            rw [← Option.some.inj isNext]
            exact .of_finished rfl rfl (fun _ => le_rfl) (Multiset.le_cons_self _ _)
      · cases result
  | allocatePage thread region =>
      change state.allocatePage thread pageSize region = some next at result
      unfold State.allocatePage at result
      split at result
      · rw [← Option.some.inj result]
        exact .of_moved rfl (fun _ => rfl) rfl (fun _ => rfl) rfl
      · cases result
  | registerWithPage thread =>
      change state.registerWithPage thread pageSize = some next at result
      unfold State.registerWithPage at result
      split at result
      · obtain ⟨registry, _, isNext⟩ := Option.bind_eq_some_iff.mp result
        rw [← Option.some.inj isNext]
        exact .of_finished rfl rfl (fun _ => le_rfl) (Multiset.le_cons_self _ _)
      · cases result
  | unmapLarge thread =>
      change state.unmapLarge thread = some next at result
      unfold State.unmapLarge at result
      split at result
      · rw [← Option.some.inj result]
        exact .of_moved rfl (fun _ => rfl) rfl (fun _ => rfl) rfl
      · cases result
  | releaseNext thread =>
      change state.releaseNext thread = some next at result
      unfold State.releaseNext at result
      split at result
      · split at result
        · rw [← Option.some.inj result]
          exact .of_moved rfl (fun _ => rfl) rfl (fun _ => rfl) rfl
        · obtain ⟨cc, _, isNext⟩ := Option.bind_eq_some_iff.mp result
          rw [← Option.some.inj isNext]
          exact @Effect.of_moved _ _ _ (.releaseNext thread) _ rfl (fun _ => rfl) rfl
            (live_setClass_eq rfl) rfl
      · cases result
  | chunkFails thread | largeFails thread | pageFails thread =>
      rw [← Option.some.inj result]
      exact .of_finished rfl rfl (fun _ => le_rfl) le_rfl
  | exit thread | squeeze thread padsz =>
      rw [← Option.some.inj result]
      exact .of_moved rfl (fun _ => rfl) rfl (fun _ => rfl) rfl

end MallocSurvey.Ltalloc
