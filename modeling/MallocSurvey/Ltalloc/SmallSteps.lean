import MallocSurvey.Ltalloc.LargeSteps

/-! # The events of chunks and their blocks keep the invariant -/

namespace MallocSurvey.Ltalloc

open Library

variable {threads pageSize : Nat} {state next : State threads} {thread : Fin threads}
  {status : Status} {sizeClass chunk : Nat} {cs : ClassState threads}

/-! ## Events that leave the large blocks alone -/

/-- The parts that these events do not touch. -/
structure SameLarge (state next : State threads) : Prop where
  registry : next.registry = state.registry
  large : next.large = state.large
  pages : next.pages = state.pages

/-- What an event of one thread on one class writes outside of that class. -/
structure ClassFrame (state next : State threads) (thread : Fin threads) (sizeClass : Nat) :
    Prop where
  words : ∀ other, other ≠ sizeClass → ∀ chunk ∈ (state.classes other).chunks,
    next.lastWord (chunk + chunkSize) = state.lastWord (chunk + chunkSize)
  headers : ∀ other, other ≠ sizeClass → ∀ chunk ∈ (state.classes other).chunks,
    next.headers chunk = state.headers chunk
  inserted : ∀ other, other ≠ thread → ∀ sizeClass chunk,
    state.status other = .insertingChunk sizeClass chunk →
    next.lastWord (chunk + chunkSize) = state.lastWord (chunk + chunkSize)

theorem classFrame_same (words : next.lastWord = state.lastWord)
    (headers : next.headers = state.headers) : ClassFrame state next thread sizeClass where
  words _ _ _ _ := by rw [words]
  headers _ _ _ _ := by rw [headers]
  inserted _ _ _ _ _ := by rw [words]

theorem Inv.smallStep (inv : Inv pageSize state) (served : Served sizeClass)
    (classes : next.classes = Function.update state.classes sizeClass cs)
    (changed : next.status = Function.update state.status thread status)
    (same : SameLarge state next) (frame : ClassFrame state next thread sizeClass)
    (views : ∀ other, other ≠ sizeClass → SameView other (state.status thread) status)
    (own : ∃ tails, ClassInv sizeClass cs next.lastWord
      (Function.update (state.fetching sizeClass) thread (status.fetches sizeClass))
      (next.detached sizeClass) tails)
    (headersOk : ∀ chunk ∈ cs.chunks, next.headers chunk = sizeClass)
    (statusInv : StatusInv pageSize next.lastWord status)
    (padOk : ∀ chunk ∈ next.padChunks, IsChunk chunk)
    {padOld padNew mappedOld mappedNew : Multiset (Nat × Nat)}
    (padChange : chunkRegions next.padChunks + padOld = chunkRegions state.padChunks + padNew)
    (mappedChange : next.mapped + mappedOld = state.mapped + mappedNew)
    (balance : chunkRegions cs.chunks + status.held pageSize + padNew + mappedOld =
      chunkRegions (state.classes sizeClass).chunks + (state.status thread).held pageSize +
        padOld + mappedNew)
    (nodup : (next.mapped.map Prod.fst).Nodup) : Inv pageSize next where
  classInv := inv.classInv_update classes changed own views frame.words
  unserved := by
    intro other notServed
    have different : other ≠ sizeClass := fun equal => notServed (by rwa [equal])
    rw [classes, Function.update_of_ne different]
    exact inv.unserved other notServed
  status := inv.status_update changed statusInv frame.inserted
  headers := by
    intro other
    rw [classes]
    by_cases same : other = sizeClass
    · rw [same, Function.update_self]
      exact headersOk
    · rw [Function.update_of_ne same]
      exact fun chunk member =>
        (frame.headers other same chunk member).trans (inv.headers other chunk member)
  registry := by rw [same.registry, same.large, same.pages]; exact inv.registry
  large := by rw [same.large]; exact inv.large
  padChunks := padOk
  ledger := by
    have largeChange : next.large + 0 = state.large + 0 := by rw [same.large]
    have pagesChange : next.pageRegions pageSize + 0 = state.pageRegions pageSize + 0 := by
      rw [State.pageRegions, State.pageRegions, same.pages]
    refine ledger_update inv.ledger (classRegions_update classes served.geometry.class_lt)
      (held_update changed pageSize) padChange largeChange pagesChange mappedChange ?_
    simpa using balance
  nodup := nodup

theorem classes_update_self (same : next.classes = state.classes) (sizeClass : Nat) :
    next.classes = Function.update state.classes sizeClass (state.classes sizeClass) := by
  rw [same, Function.update_eq_self]

/-- The class when the thread's share of it stays the same. -/
theorem Inv.classInv_kept (inv : Inv pageSize state) (served : Served sizeClass)
    (changed : next.status = Function.update state.status thread status)
    (view : SameView sizeClass (state.status thread) status)
    (words : ∀ chunk ∈ (state.classes sizeClass).chunks,
      next.lastWord (chunk + chunkSize) = state.lastWord (chunk + chunkSize)) :
    ∃ tails, ClassInv sizeClass (state.classes sizeClass) next.lastWord
      (Function.update (state.fetching sizeClass) thread (status.fetches sizeClass))
      (next.detached sizeClass) tails := by
  obtain ⟨tails, classInv⟩ := inv.classInv sizeClass served
  obtain ⟨fetching, detached⟩ := view.same changed
  rw [← fetching_update changed, fetching, detached]
  exact ⟨tails, classInv.congr served.geometry words⟩

/-! ## A thread gets a chunk -/

/-- A chunk from the pad or from the system that no other thread has. -/
theorem Inv.takeChunk (inv : Inv pageSize state)
    (waiting : state.status thread = .allocatingChunk sizeClass) (isChunk : IsChunk chunk)
    (classes : next.classes = state.classes)
    (changed : next.status = Function.update state.status thread
      (.insertingChunk sizeClass chunk))
    (same : SameLarge state next) (headers : next.headers = state.headers)
    (words : next.lastWord = Function.update state.lastWord (chunk + chunkSize) 0)
    (notClass : ∀ other, ∀ old ∈ (state.classes other).chunks, old ≠ chunk)
    (notHeld : ∀ other sizeClass old,
      state.status other = .insertingChunk sizeClass old → old ≠ chunk)
    (padOk : ∀ other ∈ next.padChunks, IsChunk other)
    {padOld mappedNew : Multiset (Nat × Nat)}
    (padChange : chunkRegions next.padChunks + padOld = chunkRegions state.padChunks)
    (mappedChange : next.mapped = state.mapped + mappedNew)
    (balance : padOld + mappedNew = {(chunk, chunkSize)})
    (nodup : (next.mapped.map Prod.fst).Nodup) : Inv pageSize next := by
  have served : Served sizeClass := by
    have statusInv := inv.status thread
    rwa [waiting] at statusInv
  have view : ∀ other, SameView other (state.status thread)
      (.insertingChunk sizeClass chunk) := by
    intro other
    rw [waiting]
    exact ⟨rfl, rfl⟩
  -- the last word of a chunk that nobody else has is written
  have frame : ∀ other, other ≠ chunk →
      next.lastWord (other + chunkSize) = state.lastWord (other + chunkSize) := by
    intro other different
    rw [words]
    exact Function.update_of_ne (fun equal => different (Nat.add_right_cancel equal)) _ _
  refine @Inv.smallStep threads pageSize state next thread _ sizeClass _ inv served
    (classes_update_self classes sizeClass) changed same
    ⟨fun other _ old member => frame old (notClass other old member),
      fun _ _ _ _ => by rw [headers],
      fun other _ _ old inserting => frame old (notHeld other _ old inserting)⟩
    (fun other _ => view other)
    (inv.classInv_kept served changed (view sizeClass) fun old member =>
      frame old (notClass sizeClass old member))
    (by rw [headers]; exact inv.headers sizeClass)
    ⟨served, isChunk, by rw [words]; exact Function.update_self ..⟩ padOk padOld 0 0 mappedNew
    (by rw [add_zero]; exact padChange) (by rw [add_zero]; exact mappedChange) ?_ nodup
  rw [waiting, add_assoc _ padOld, balance]
  simp [Status.held]

theorem Inv.allocateChunk (inv : Inv pageSize state) (ok : PageSize pageSize)
    (waiting : state.status thread = .allocatingChunk sizeClass) {region : Nat}
    (fresh : state.padChunks = [] → IsFresh chunkSize region chunkSize state.mapped) :
    ∃ next chunk, state.allocateChunk thread region = some next ∧ Inv pageSize next ∧
      next.classes = state.classes ∧
      next.status = Function.update state.status thread (.insertingChunk sizeClass chunk) := by
  have heldChunk : ∀ {other : Fin threads} {sizeClass old : Nat},
      state.status other = .insertingChunk sizeClass old →
      (old, chunkSize) ∈ (state.status other).held pageSize := by
    intro other sizeClass old inserting
    rw [inserting]
    exact Multiset.mem_singleton_self _
  cases pad : state.padChunks with
  | cons chunk rest =>
      have onPad : chunk ∈ state.padChunks := by
        rw [pad]
        exact List.mem_cons_self
      refine ⟨{ state with
          padChunks := rest
          padSize := (state.padSize + (2 ^ 64 - chunkSize)) % 2 ^ 64
          lastWord := Function.update state.lastWord (chunk + chunkSize) 0 }.setStatus thread
            (.insertingChunk sizeClass chunk), chunk,
        by rw [State.allocateChunk, waiting, pad], ?_, rfl, rfl⟩
      refine @Inv.takeChunk threads pageSize state _ thread sizeClass chunk inv waiting
        (inv.padChunks chunk onPad) rfl rfl ⟨rfl, rfl, rfl⟩ rfl rfl
        (fun other old member => inv.pad_ne_class onPad member)
        (fun other _ old inserting => inv.pad_ne_held onPad (heldChunk inserting))
        ?_ {(chunk, chunkSize)} 0 ?_ (add_zero _).symm (add_zero _) inv.nodup
      · intro other member
        apply inv.padChunks
        rw [pad]
        exact List.mem_cons_of_mem _ member
      · rw [pad, add_comm]
        rfl
  | nil =>
      have isFresh := fresh pad
      have notMapped : ∀ item ∈ state.mapped, item.1 ≠ region := fun item isMapped =>
        isFresh.base_ne chunkSize_pos isMapped (inv.mapped_positive ok isMapped)
      refine ⟨{ state with
          mapped := (region, chunkSize) ::ₘ state.mapped
          lastWord := Function.update state.lastWord (region + chunkSize) 0 }.setStatus thread
            (.insertingChunk sizeClass region), region,
        by rw [State.allocateChunk, waiting, pad], ?_, rfl, rfl⟩
      refine @Inv.takeChunk threads pageSize state _ thread sizeClass region inv waiting
        ⟨isFresh.aligned, isFresh.nonzero⟩ rfl rfl ⟨rfl, rfl, rfl⟩ rfl rfl ?_ ?_ inv.padChunks
        0 {(region, chunkSize)} (add_zero _) ?_ (zero_add _)
        (inv.nodup_cons ok isFresh chunkSize_pos)
      · intro other old member
        apply notMapped (old, chunkSize)
        rw [inv.ledger]
        simp [State.owned, inv.chunk_mem member]
      · intro other _ old inserting
        apply notMapped (old, chunkSize)
        rw [inv.ledger]
        have inHeld := Multiset.mem_of_le (held_le_owned other) (heldChunk inserting)
        simp [State.owned, inHeld]
      · exact (Multiset.singleton_add _ _).symm.trans (add_comm _ _)

/-- The chunk of a thread goes to its class, and the thread gets one of its blocks. -/
theorem Inv.insertChunk (inv : Inv pageSize state)
    (isStatus : state.status thread = .insertingChunk sizeClass chunk) :
    ∃ next, state.insertChunk thread = some next ∧ Inv pageSize next ∧
      next.status = Function.update state.status thread .idle ∧
      next.result thread ∉ (state.classes sizeClass).live ∧
      (next.classes sizeClass).live =
        next.result thread ::ₘ (state.classes sizeClass).live := by
  obtain ⟨served, isChunk, zeroFilled⟩ : Served sizeClass ∧ IsChunk chunk ∧
      state.lastWord (chunk + chunkSize) = 0 := by
    have statusInv := inv.status thread
    rwa [isStatus] at statusInv
  have isHeld : (state.status thread).held pageSize = {(chunk, chunkSize)} := by
    rw [isStatus]
    rfl
  have inHeld : (chunk, chunkSize) ∈ (state.status thread).held pageSize :=
    isHeld ▸ Multiset.mem_singleton_self _
  have isNew : ∀ other, ∀ old ∈ (state.classes other).chunks, old ≠ chunk :=
    fun other old member => inv.held_ne_class inHeld member
  obtain ⟨tails, classInv⟩ := inv.classInv sizeClass served
  have isFetching : state.fetching sizeClass thread = true := by
    rw [State.fetching, isStatus]
    exact beq_self_eq_true _
  obtain ⟨block, tc, cc, hooked, newTails, result, notLive, frame, newInv⟩ :=
    classInv.insertChunk served.geometry isFetching isChunk.aligned isChunk.nonzero
      (fun member => isNew sizeClass chunk member rfl) zeroFilled
  have apart : ∀ other, other ≠ chunk →
      hooked (other + chunkSize) = state.lastWord (other + chunkSize) :=
    fun other different => frame _ fun equal => different (Nat.add_right_cancel equal)
  let after : ClassState threads := { state.classes sizeClass with
    caches := Function.update (state.classes sizeClass).caches thread tc
    central := cc
    live := block ::ₘ (state.classes sizeClass).live
    chunks := chunk :: (state.classes sizeClass).chunks }
  have classes : Function.update (Function.update state.classes sizeClass
      { state.classes sizeClass with chunks := chunk :: (state.classes sizeClass).chunks })
      sizeClass after = Function.update state.classes sizeClass after :=
    Function.update_idem ..
  refine ⟨({ state with
      headers := Function.update state.headers chunk sizeClass
      lastWord := hooked
      classes := Function.update state.classes sizeClass after }).finish thread block, ?_, ?_, rfl,
    ?_, ?_⟩
  · rw [State.insertChunk, isStatus]
    simp only [result, Option.bind_eq_bind, Option.bind_some, Option.pure_def, State.fetched,
      State.setClass, Function.update_self]
    exact congrArg (fun classes => some (({ state with
      classes
      headers := Function.update state.headers chunk sizeClass
      lastWord := hooked }).finish thread block)) classes
  · refine @Inv.smallStep threads pageSize state _ thread .idle sizeClass after inv served rfl rfl
      ⟨rfl, rfl, rfl⟩ ⟨fun other _ old member => apart old (isNew other old member), ?_, ?_⟩ ?_
      ⟨newTails, ?_⟩ ?_ trivial inv.padChunks 0 0 0 0 rfl rfl ?_ inv.nodup
    · exact fun other _ old member => Function.update_of_ne (isNew other old member) _ _
    · intro other different otherClass old inserting
      apply apart
      have otherHeld : (old, chunkSize) ∈ (state.status other).held pageSize := by
        rw [inserting]
        exact Multiset.mem_singleton_self _
      exact inv.held_ne_held different otherHeld inHeld
    · intro other different
      rw [isStatus]
      exact ⟨(beq_false_of_ne different.symm).symm, rfl⟩
    · rw [detached_same rfl (by rw [isStatus]; rfl)]
      exact newInv
    · intro old member
      rcases List.mem_cons.mp member with rfl | isOld
      · exact Function.update_self ..
      · exact (Function.update_of_ne (isNew sizeClass old isOld) _ _).trans
          (inv.headers sizeClass old isOld)
    · rw [isHeld]
      change chunkRegions (chunk :: (state.classes sizeClass).chunks) + 0 + 0 + 0 = _
      simp only [chunkRegions, List.map_cons, add_zero, ← Multiset.cons_coe]
      exact (Multiset.singleton_add _ _).symm.trans (add_comm _ _)
  · rw [show (State.finish _ thread block).result thread = block from Function.update_self ..]
    exact notLive
  · rw [show (State.finish _ thread block).result thread = block from Function.update_self ..]
    exact congrArg ClassState.live (Function.update_self sizeClass after state.classes)

/-! ## Freeing -/

theorem Inv.served_of_live (inv : Inv pageSize state) {block : Nat}
    (isLive : block ∈ (state.classes sizeClass).live) : Served sizeClass := by
  by_contra notServed
  rw [inv.unserved sizeClass notServed] at isLive
  exact Multiset.notMem_zero _ isLive

/-- The chunk of a live block, with the class in its header. -/
theorem Inv.chunk_of_live (inv : Inv pageSize state) {block : Nat}
    (isLive : block ∈ (state.classes sizeClass).live) :
    block / chunkSize * chunkSize ∈ (state.classes sizeClass).chunks ∧
      block % chunkSize ≠ 0 ∧
      block ∈ chunkBlocks sizeClass (block / chunkSize * chunkSize) := by
  have served := inv.served_of_live isLive
  obtain ⟨tails, classInv⟩ := inv.classInv sizeClass served
  exact classInv.chunk_of_mem served.geometry (Multiset.mem_add.mpr (.inl
    (Multiset.mem_add.mpr (.inl (Multiset.mem_add.mpr (.inl isLive))))))

theorem Inv.freeSmall (inv : Inv pageSize state) (isIdle : state.status thread = .idle)
    {block : Nat} (isLive : block ∈ (state.classes sizeClass).live) :
    ∃ next, state.free thread block = some next ∧ Inv pageSize next ∧
      next.status = state.status ∧
      (next.classes sizeClass).live = (state.classes sizeClass).live.erase block := by
  have served := inv.served_of_live isLive
  obtain ⟨isChunk, inside, _⟩ := inv.chunk_of_live isLive
  obtain ⟨tails, classInv⟩ := inv.classInv sizeClass served
  obtain ⟨tc, cc, result, newInv⟩ :=
    classInv.free served.geometry (fetching_of_idle isIdle) isLive
  let after : ClassState threads := { state.classes sizeClass with
    caches := Function.update (state.classes sizeClass).caches thread tc
    central := cc
    live := (state.classes sizeClass).live.erase block }
  have sameStatus : state.status = Function.update state.status thread .idle := by
    rw [← isIdle, Function.update_eq_self]
  have notFetching : Function.update (state.fetching sizeClass) thread false =
      state.fetching sizeClass := by
    rw [← fetching_of_idle isIdle, Function.update_eq_self]
  have updated : (state.setClass sizeClass after).classes sizeClass = after :=
    Function.update_self ..
  refine ⟨state.setClass sizeClass after, ?_, ?_, rfl, congrArg ClassState.live updated⟩
  · rw [State.free, if_pos inside, inv.headers sizeClass _ isChunk]
    simp only [result, Option.bind_eq_bind, Option.bind_some, Option.pure_def]
    rfl
  · refine @Inv.moveBlocks threads pageSize state _ thread .idle sizeClass after inv served rfl rfl
      ⟨rfl, rfl, rfl, rfl, rfl, rfl, rfl⟩ sameStatus ?_ (by rw [isIdle]) trivial ⟨tails, ?_⟩
    · exact fun other _ => sameView_of_idle isIdle (fun _ => ⟨rfl, rfl⟩) other
    · have sameDetached : (state.setClass sizeClass after).detached sizeClass =
          state.detached sizeClass := rfl
      rw [sameDetached]
      exact notFetching.symm ▸ newInv

/-! ## The end of a thread -/

theorem Inv.exit (inv : Inv pageSize state) (isIdle : state.status thread = .idle) :
    Inv pageSize (state.setStatus thread (.exiting 0)) :=
  inv.proceed rfl ⟨rfl, rfl, rfl, rfl, rfl, rfl, rfl⟩ rfl
    (sameView_of_idle isIdle fun _ => ⟨rfl, rfl⟩) (by rw [isIdle]; rfl) trivial

theorem Inv.served_of_cached (inv : Inv pageSize state) {first : Nat}
    (isNext : state.nextCached thread first = some sizeClass) : Served sizeClass := by
  by_contra notServed
  have cached := List.find?_some isNext
  rw [inv.unserved sizeClass notServed] at cached
  exact absurd cached Bool.false_ne_true

theorem Inv.releaseNext (inv : Inv pageSize state) {first : Nat}
    (isStatus : state.status thread = .exiting first) :
    ∃ next status, state.releaseNext thread = some next ∧ Inv pageSize next ∧
      next.status = Function.update state.status thread status ∧
      (status = .exited ∨ ∃ sizeClass, status = .exiting (sizeClass + 1)) := by
  have quiet : ∀ status : Status, (∀ other, status.fetches other = false ∧
      status.detachedBlocks other = 0) → ∀ other, SameView other (state.status thread) status := by
    intro status isQuiet other
    rw [isStatus]
    exact ⟨(isQuiet other).1, (isQuiet other).2⟩
  cases isNext : state.nextCached thread first with
  | none =>
      refine ⟨state.setStatus thread .exited, .exited, by
        simp only [State.releaseNext, isStatus, isNext], ?_, rfl, .inl rfl⟩
      exact inv.proceed rfl ⟨rfl, rfl, rfl, rfl, rfl, rfl, rfl⟩ rfl
        (quiet _ fun _ => ⟨rfl, rfl⟩) (by rw [isStatus]; rfl) trivial
  | some sizeClass =>
      have served := inv.served_of_cached isNext
      have notFetching : state.fetching sizeClass thread = false := by
        rw [State.fetching, isStatus]
        rfl
      obtain ⟨tails, classInv⟩ := inv.classInv sizeClass served
      obtain ⟨cc, result, newInv⟩ := classInv.release served.geometry notFetching
      let after : ClassState threads := { state.classes sizeClass with
        caches := Function.update (state.classes sizeClass).caches thread .initial
        central := cc }
      have sameFetching : Function.update (state.fetching sizeClass) thread false =
          state.fetching sizeClass := by
        rw [← notFetching, Function.update_eq_self]
      refine ⟨(state.setClass sizeClass after).setStatus thread (.exiting (sizeClass + 1)),
        .exiting (sizeClass + 1), ?_, ?_, rfl, .inr ⟨sizeClass, rfl⟩⟩
      · simp only [State.releaseNext, isStatus, isNext, result, Option.bind_eq_bind,
          Option.bind_some, Option.pure_def]
        rfl
      · refine @Inv.moveBlocks threads pageSize state _ thread _ sizeClass after inv served rfl rfl
          ⟨rfl, rfl, rfl, rfl, rfl, rfl, rfl⟩ rfl (fun other _ => quiet _ (fun _ => ⟨rfl, rfl⟩) other)
          (by rw [isStatus]; rfl) trivial ⟨tails, ?_⟩
        have sameDetached : ((state.setClass sizeClass after).setStatus thread
            (.exiting (sizeClass + 1))).detached sizeClass = state.detached sizeClass :=
          @detached_same threads state _ thread _ sizeClass rfl (by rw [isStatus]; rfl)
        rw [sameDetached]
        exact sameFetching.symm ▸ newInv

end MallocSurvey.Ltalloc
