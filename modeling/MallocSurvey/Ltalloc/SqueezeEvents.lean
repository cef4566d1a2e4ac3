import MallocSurvey.Ltalloc.SmallSteps

/-! # The events of a squeeze keep the invariant

The one exception is giving back lists of which blocks get lost. -/

namespace MallocSurvey.Ltalloc

open Library

variable {threads pageSize : Nat} {state next : State threads} {thread : Fin threads}
  {status : Status} {padsz sizeClass : Nat} {lists : Detached} {freeChunks : List Nat}

/-! ## Between the classes -/

theorem not_small_succ (notSmall : chunkIsSmall sizeClass = false) :
    chunkIsSmall (sizeClass + 1) = false := by
  have lower : getSizeClass 16 ≤ sizeClass := of_decide_eq_false notSmall |> Nat.le_of_not_lt
  exact decide_eq_false (by omega)

/-- The squeeze leaves a class. -/
theorem Inv.nextSqueezed (inv : Inv pageSize state)
    (views : ∀ status : Status, (∀ other, status.fetches other = false ∧
      status.detachedBlocks other = 0) → ∀ other, SameView other (state.status thread) status)
    (held : (state.status thread).held pageSize = 0)
    (notSmall : chunkIsSmall sizeClass = false) :
    Inv pageSize (state.nextSqueezed thread padsz sizeClass) := by
  unfold State.nextSqueezed
  by_cases more : sizeClass + 1 < numberOfSizeClasses
  · rw [if_pos more]
    exact inv.proceed rfl ⟨rfl, rfl, rfl, rfl, rfl, rfl, rfl⟩ rfl (views _ fun _ => ⟨rfl, rfl⟩)
      held.symm (not_small_succ notSmall)
  · rw [if_neg more]
    exact inv.proceed rfl ⟨rfl, rfl, rfl, rfl, rfl, rfl, rfl⟩ rfl (views _ fun _ => ⟨rfl, rfl⟩)
      held.symm trivial

theorem Inv.squeeze (inv : Inv pageSize state) (isIdle : state.status thread = .idle) :
    Inv pageSize (state.setStatus thread (.squeezing padsz (getSizeClass 16))) :=
  inv.proceed rfl ⟨rfl, rfl, rfl, rfl, rfl, rfl, rfl⟩ rfl
    (sameView_of_idle isIdle fun _ => ⟨rfl, rfl⟩) (by rw [isIdle]; rfl)
    (show chunkIsSmall (getSizeClass 16) = false by decide)

/-! ## The locked sections -/

/-- A class with more than one chunk is one that requests get. -/
theorem Inv.served_of_range (inv : Inv pageSize state)
    (spread : ¬ (state.classes sizeClass).central.maxChunkAddr -
      (state.classes sizeClass).central.minChunkAddr ≤ chunkSize) : Served sizeClass := by
  by_contra notServed
  rw [inv.unserved sizeClass notServed] at spread
  exact spread (Nat.zero_le _)

/-- The lists as the first locked section detaches them. -/
def detachedOf (cc : CentralCache) : Detached where
  batches := cc.firstBatch
  freeList := cc.freeList
  freeListSize := cc.freeListSize
  minChunkAddr := cc.minChunkAddr
  slots := (cc.maxChunkAddr - cc.minChunkAddr) / chunkSize + 1

theorem ClassInv.detachedInv {cs : ClassState threads} {lastWord : Nat → Nat}
    {fetching : Fin threads → Bool} {detached : Multiset Nat} {tails : List Nat}
    (inv : ClassInv sizeClass cs lastWord fetching detached tails) (served : Served sizeClass)
    (notSmall : chunkIsSmall sizeClass = false) :
    DetachedInv sizeClass (detachedOf cs.central) := by
  have batchesEq := batches_of_not_small cs.central notSmall
  have inStock : ∀ block ∈ (detachedOf cs.central).blocks,
      block / chunkSize * chunkSize ∈ cs.chunks := by
    intro block member
    have stored : block ∈ cs.central.stock sizeClass tails := by
      rw [CentralCache.stock, batchesEq]
      simp only [Multiset.mem_add, Multiset.mem_coe]
      exact .inl (List.mem_append.mp member)
    exact (inv.chunk_of_mem served.geometry
      (Multiset.mem_add.mpr (.inl (Multiset.mem_add.mpr (.inr stored))))).1
  refine ⟨served, notSmall, fun batch member => inv.central.batches_full batch (by rwa [batchesEq]),
    inv.central.freeListSize, inv.central.minChunkAddr.2, ?_, ?_⟩
  · intro block member
    have lower := (inv.central.bounds _ (inStock block member)).1
    exact lower.trans (Nat.div_mul_le_self _ _)
  · intro block member
    have bounds := inv.central.bounds _ (inStock block member)
    have minAligned := inv.central.minChunkAddr.2
    simp only [detachedOf, chunkIndex, chunkSize] at bounds minAligned ⊢
    omega

theorem Inv.detachLists (inv : Inv pageSize state)
    (isStatus : state.status thread = .squeezing padsz sizeClass) :
    ∃ next, state.detachLists thread = some next ∧ Inv pageSize next := by
  have notSmall : chunkIsSmall sizeClass = false := by
    have statusInv := inv.status thread
    rwa [isStatus] at statusInv
  by_cases few : (state.classes sizeClass).central.maxChunkAddr -
      (state.classes sizeClass).central.minChunkAddr ≤ chunkSize
  · refine ⟨state.nextSqueezed thread padsz sizeClass, ?_, ?_⟩
    · simp only [State.detachLists, isStatus, if_pos few]
    · refine inv.nextSqueezed ?_ (by rw [isStatus]; rfl) notSmall
      intro status isQuiet other
      rw [isStatus]
      exact ⟨(isQuiet other).1, (isQuiet other).2⟩
  · have served := inv.served_of_range few
    obtain ⟨tails, classInv⟩ := inv.classInv sizeClass served
    let after : ClassState threads := { state.classes sizeClass with
      central := { (state.classes sizeClass).central with
        firstBatch := [], freeList := [], freeListSize := 0 } }
    let lists := detachedOf (state.classes sizeClass).central
    refine ⟨(state.setClass sizeClass after).setStatus thread (.detached padsz sizeClass lists),
      ?_, ?_⟩
    · simp only [State.detachLists, isStatus, if_neg few]
      rfl
    · refine @Inv.moveBlocks threads pageSize state _ thread _ sizeClass after inv served rfl rfl
        ⟨rfl, rfl, rfl, rfl, rfl, rfl, rfl⟩ rfl ?_ (by rw [isStatus]; rfl)
        (classInv.detachedInv served notSmall) ⟨tails, ?_⟩
      · intro other different
        rw [isStatus]
        exact ⟨rfl, if_neg different.symm⟩
      · have updated := @detached_update threads state
          ((state.setClass sizeClass after).setStatus thread (.detached padsz sizeClass lists))
          thread (.detached padsz sizeClass lists) rfl sizeClass
        have before : (state.status thread).detachedBlocks sizeClass = 0 := by
          rw [isStatus]
          rfl
        have own : Status.detachedBlocks sizeClass (.detached padsz sizeClass lists) =
            (lists.blocks : Multiset Nat) := if_pos rfl
        have notFetching : Function.update (state.fetching sizeClass) thread false =
            state.fetching sizeClass := by
          have isFalse : state.fetching sizeClass thread = false := by
            rw [State.fetching, isStatus]
            rfl
          rw [← isFalse, Function.update_eq_self]
        rw [before, add_zero, own] at updated
        rw [updated]
        exact notFetching.symm ▸ classInv.detach notSmall

theorem chunkRegions_append (left right : List Nat) :
    chunkRegions (left ++ right) = chunkRegions left + chunkRegions right := by
  rw [chunkRegions, List.map_append, ← Multiset.coe_add]
  rfl

theorem chunks_split {chunks : List Nat} (nodup : chunks.Nodup) (freeNodup : freeChunks.Nodup)
    (subset : ∀ chunk ∈ freeChunks, chunk ∈ chunks) :
    chunkRegions (chunks.filter (· ∉ freeChunks)) + chunkRegions freeChunks =
      chunkRegions chunks := by
  have freePerm : (chunks.filter (· ∈ freeChunks)).Perm freeChunks := by
    rw [List.perm_ext_iff_of_nodup (nodup.filter _) freeNodup]
    intro chunk
    simp only [List.mem_filter, decide_eq_true_eq]
    exact ⟨fun member => member.2, fun isFree => ⟨subset chunk isFree, isFree⟩⟩
  have split : (chunks.filter (· ∉ freeChunks) ++ freeChunks).Perm chunks := by
    have parts := List.filter_append_perm (· ∈ freeChunks) chunks
    have swapped := (List.perm_append_comm.trans (freePerm.symm.append_right _)).trans parts
    simpa using swapped
  rw [← chunkRegions_append, chunkRegions, chunkRegions, Multiset.coe_eq_coe]
  exact split.map _

/-- What a second locked section does to its class. -/
structure GivesBack (sizeClass : Nat) (lists : Detached) (counted : Bool)
    (cs after : ClassState threads) (tails : List Nat) (freeChunks : List Nat) : Prop where
  releasable : ∀ chunk ∈ freeChunks,
    chunk ∈ cs.chunks ∧ Releasable sizeClass lists.blocks chunk
  found : freeChunks ≠ [] ↔ FindsFree sizeClass lists counted
  chunks : after.chunks = cs.chunks.filter (· ∉ freeChunks)
  live : after.live = cs.live
  caches : after.caches = cs.caches
  loose : after.central.freeList.length =
    looseCount sizeClass lists counted + cs.central.freeList.length
  stock : after.central.stock sizeClass tails +
      (freeChunks.flatMap (chunkBlocks sizeClass) : Multiset Nat) =
    cs.central.stock sizeClass tails + (lists.blocks : Multiset Nat)

theorem Inv.giveBack (inv : Inv pageSize state) {counted : Bool}
    (isStatus : state.status thread = .detached padsz sizeClass lists)
    (keepsAll : LosesNothing sizeClass lists (state.classes sizeClass).central.freeList
      counted) :
    ∃ next freeChunks tails, state.giveBack thread counted = some next ∧ Inv pageSize next ∧
      GivesBack sizeClass lists counted (state.classes sizeClass) (next.classes sizeClass) tails
        freeChunks ∧
      TailsOf sizeClass (next.classes sizeClass).central (next.classes sizeClass).chunks
        next.lastWord tails ∧
      (freeChunks ≠ [] → next.status thread = .padding padsz sizeClass freeChunks) := by
  have detachedInv : DetachedInv sizeClass lists := by
    have statusInv := inv.status thread
    rwa [isStatus] at statusInv
  have served := detachedInv.served
  obtain ⟨tails, classInv⟩ := inv.classInv sizeClass served
  have own : (state.status thread).detachedBlocks sizeClass = (lists.blocks : Multiset Nat) := by
    rw [isStatus]
    exact if_pos rfl
  have isFalse : state.fetching sizeClass thread = false := by
    rw [State.fetching, isStatus]
    rfl
  have notFetching : Function.update (state.fetching sizeClass) thread false =
      state.fetching sizeClass := by
    rw [← isFalse, Function.update_eq_self]
  -- the blocks that other threads have detached
  obtain ⟨rest, isRest⟩ : ∃ rest, state.detached sizeClass =
      rest + (lists.blocks : Multiset Nat) := by
    have updated := @detached_update threads state (state.setStatus thread .idle) thread .idle rfl
      sizeClass
    rw [own] at updated
    exact ⟨_, (add_zero _).symm.trans updated.symm⟩
  rw [isRest] at classInv
  obtain ⟨count, cc, result, freeOk, freeNodup, headersSame, found, loose, stock, newInv⟩ :=
    classInv.giveBack served.geometry detachedInv (inv.headers sizeClass) keepsAll
  let after : ClassState threads := { state.classes sizeClass with
    central := cc
    chunks := (state.classes sizeClass).chunks.filter (· ∉ count.freeChunks) }
  let given : State threads := { state with headers := count.headers }.setClass sizeClass after
  have otherChunk : ∀ other, other ≠ sizeClass → ∀ chunk ∈ (state.classes other).chunks,
      chunk ∉ count.freeChunks := by
    intro other different chunk member isFree
    have ofOther := inv.headers other chunk member
    have ofClass := inv.headers sizeClass chunk (freeOk chunk isFree).1
    exact different (ofOther.symm.trans ofClass)
  have goesOn : ∀ status : Status, (∀ other, status.fetches other = false ∧
      status.detachedBlocks other = 0) → status.held pageSize = chunkRegions count.freeChunks →
      StatusInv pageSize state.lastWord status → Inv pageSize (given.setStatus thread status) := by
    intro status quiet held statusInv
    refine @Inv.smallStep threads pageSize state _ thread status sizeClass after inv served rfl rfl
      ⟨rfl, rfl, rfl⟩ ⟨fun _ _ _ _ => rfl, ?_, fun _ _ _ _ _ => rfl⟩ ?_ ⟨tails, ?_⟩ ?_ statusInv
      inv.padChunks 0 0 0 0 rfl rfl ?_ inv.nodup
    · exact fun other different chunk member =>
        headersSame chunk (otherChunk other different chunk member)
    · intro other different
      rw [isStatus]
      exact ⟨(quiet other).1, (quiet other).2.trans (if_neg different.symm).symm⟩
    · have updated := @detached_update threads state (given.setStatus thread status) thread status
        rfl sizeClass
      rw [own, (quiet sizeClass).2, add_zero, isRest] at updated
      rw [(quiet sizeClass).1, add_right_cancel updated]
      exact notFetching.symm ▸ newInv
    · intro chunk member
      obtain ⟨isChunk, notFree⟩ := List.mem_filter.mp member
      exact (headersSame chunk (of_decide_eq_true notFree)).trans
        (inv.headers sizeClass chunk isChunk)
    · have before : (state.status thread).held pageSize = 0 := by
        rw [isStatus]
        rfl
      rw [before, held]
      simp only [add_zero]
      exact chunks_split classInv.nodup freeNodup fun chunk isFree => (freeOk chunk isFree).1
  have updated : given.classes sizeClass = after := Function.update_self ..
  have gives : ∀ status : Status, GivesBack sizeClass lists counted (state.classes sizeClass)
      ((given.setStatus thread status).classes sizeClass) tails count.freeChunks ∧
      TailsOf sizeClass ((given.setStatus thread status).classes sizeClass).central
        ((given.setStatus thread status).classes sizeClass).chunks state.lastWord tails := by
    intro status
    have isAfter : (given.setStatus thread status).classes sizeClass = after := updated
    rw [isAfter]
    exact ⟨⟨freeOk, found, rfl, rfl, rfl, loose, stock⟩, newInv.central.tails⟩
  by_cases isFound : count.freeChunks ≠ []
  · refine ⟨given.setStatus thread (.padding padsz sizeClass count.freeChunks), count.freeChunks,
      tails, ?_, ?_, (gives _).1, (gives _).2, fun _ => setStatus_status ..⟩
    · simp only [State.giveBack, isStatus, result, Option.bind_eq_bind, Option.bind_some,
        Option.pure_def, if_pos isFound]
      rfl
    · exact goesOn _ (fun _ => ⟨rfl, rfl⟩) rfl
        ⟨detachedInv.large, fun chunk isFree =>
          ⟨(classInv.central.aligned chunk (freeOk chunk isFree).1).1,
            (classInv.central.aligned chunk (freeOk chunk isFree).1).2⟩⟩
  · have none := not_not.mp isFound
    refine ⟨given.nextSqueezed thread padsz sizeClass, count.freeChunks, tails, ?_, ?_,
      (gives _).1, (gives _).2, fun someChunk => absurd none someChunk⟩
    · simp only [State.giveBack, isStatus, result, Option.bind_eq_bind, Option.bind_some,
        Option.pure_def, if_neg isFound]
      rfl
    · unfold State.nextSqueezed
      rw [none] at goesOn
      by_cases more : sizeClass + 1 < numberOfSizeClasses
      · rw [if_pos more]
        exact goesOn _ (fun _ => ⟨rfl, rfl⟩) rfl (not_small_succ detachedInv.large)
      · rw [if_neg more]
        exact goesOn _ (fun _ => ⟨rfl, rfl⟩) rfl trivial

/-! ## The pad -/

theorem takePad_append (padSize : Nat) (freeChunks : List Nat) :
    (State.takePad padsz padSize freeChunks).1 ++ (State.takePad padsz padSize freeChunks).2.1 =
      freeChunks := by
  induction freeChunks generalizing padSize with
  | nil => rfl
  | cons chunk rest induction =>
      rw [State.takePad]
      split
      · exact congrArg (chunk :: ·) (induction _)
      · rfl

theorem Inv.putOff (inv : Inv pageSize state)
    (isStatus : state.status thread = .padding padsz sizeClass freeChunks) :
    ∃ next, state.putOff thread = some next ∧ Inv pageSize next := by
  obtain ⟨notSmall, areChunks⟩ : chunkIsSmall sizeClass = false ∧
      ∀ chunk ∈ freeChunks, IsChunk chunk := by
    have statusInv := inv.status thread
    rwa [isStatus] at statusInv
  have quiet : ∀ others other, SameView other (state.status thread)
      (.unmapping padsz sizeClass others) := by
    intro others other
    rw [isStatus]
    exact ⟨rfl, rfl⟩
  have isHeld : (state.status thread).held pageSize = chunkRegions freeChunks := by
    rw [isStatus]
    rfl
  by_cases wanted : padsz ≠ 0 ∧ state.padSize < padsz
  · have whole := @takePad_append padsz state.padSize freeChunks
    generalize isTaken : State.takePad padsz state.padSize freeChunks = taken at whole
    refine ⟨{ state with padChunks := taken.1 ++ state.padChunks, padSize := taken.2.2 }.setStatus
      thread (.unmapping padsz sizeClass taken.2.1), ?_, ?_⟩
    · simp only [State.putOff, isStatus, if_pos wanted, isTaken]
    · have served : Served (getSizeClass 1) := by decide
      refine @Inv.smallStep threads pageSize state _ thread _ (getSizeClass 1) _ inv served
        (classes_update_self rfl _) rfl ⟨rfl, rfl, rfl⟩ (classFrame_same rfl rfl)
        (fun other _ => quiet _ other)
        (inv.classInv_kept served rfl (quiet _ _) fun _ _ => rfl) (inv.headers _)
        ⟨notSmall, ?_⟩ ?_ 0 (chunkRegions taken.1) 0 0 ?_ rfl ?_ inv.nodup
      · intro chunk member
        apply areChunks
        rw [← whole]
        exact List.mem_append_right _ member
      · intro chunk member
        rcases List.mem_append.mp member with isTaken | onPad
        · apply areChunks
          rw [← whole]
          exact List.mem_append_left _ isTaken
        · exact inv.padChunks chunk onPad
      · change chunkRegions (taken.1 ++ state.padChunks) + 0 =
          chunkRegions state.padChunks + chunkRegions taken.1
        rw [chunkRegions_append, add_zero, add_comm]
      · rw [isHeld, ← whole, chunkRegions_append]
        change chunkRegions (state.classes (getSizeClass 1)).chunks +
            chunkRegions taken.2.1 + chunkRegions taken.1 + 0 =
          chunkRegions (state.classes (getSizeClass 1)).chunks +
            (chunkRegions taken.1 + chunkRegions taken.2.1) + 0 + 0
        abel
  · refine ⟨state.setStatus thread (.unmapping padsz sizeClass freeChunks), ?_, ?_⟩
    · simp only [State.putOff, isStatus, if_neg wanted]
    · exact inv.proceed rfl ⟨rfl, rfl, rfl, rfl, rfl, rfl, rfl⟩ rfl (quiet _) isHeld.symm
        ⟨notSmall, areChunks⟩

theorem Inv.unmapChunk (inv : Inv pageSize state)
    (isStatus : state.status thread = .unmapping padsz sizeClass freeChunks) :
    (∀ chunk ∈ freeChunks.head?, (chunk, chunkSize) ∈ state.mapped) ∧
      ∃ next, state.unmapChunk thread = some next ∧ Inv pageSize next := by
  obtain ⟨notSmall, areChunks⟩ : chunkIsSmall sizeClass = false ∧
      ∀ chunk ∈ freeChunks, IsChunk chunk := by
    have statusInv := inv.status thread
    rwa [isStatus] at statusInv
  have quiet : ∀ status : Status, (∀ other, status.fetches other = false ∧
      status.detachedBlocks other = 0) → ∀ other, SameView other (state.status thread) status := by
    intro status isQuiet other
    rw [isStatus]
    exact ⟨(isQuiet other).1, (isQuiet other).2⟩
  cases freeChunks with
  | nil =>
      refine ⟨(fun _ member => nomatch member), state.nextSqueezed thread padsz sizeClass, ?_, ?_⟩
      · simp only [State.unmapChunk, isStatus]
      · exact inv.nextSqueezed quiet (by rw [isStatus]; rfl) notSmall
  | cons chunk rest =>
      have isHeld : (state.status thread).held pageSize =
          (chunk, chunkSize) ::ₘ chunkRegions rest := by
        rw [isStatus]
        rfl
      have isMapped : (chunk, chunkSize) ∈ state.mapped := by
        have inHeld : (chunk, chunkSize) ∈ state.held pageSize :=
          Multiset.mem_of_le (held_le_owned thread) (isHeld ▸ Multiset.mem_cons_self _ _)
        rw [inv.ledger, State.owned]
        simp [inHeld]
      refine ⟨fun _ isHead => Option.mem_some.mp isHead ▸ isMapped,
        { state with mapped := state.mapped.erase (chunk, chunkSize) }.setStatus thread
          (.unmapping padsz sizeClass rest), ?_, ?_⟩
      · simp only [State.unmapChunk, isStatus]
      · refine @Inv.largeStep _ _ state _ thread (.unmapping padsz sizeClass rest) inv
          ⟨rfl, rfl, rfl, rfl⟩ rfl (quiet _ fun _ => ⟨rfl, rfl⟩)
          ⟨notSmall, fun other member => areChunks other (List.mem_cons_of_mem _ member)⟩
          inv.registry inv.large 0 0 0 0 {(chunk, chunkSize)} 0 rfl rfl ?_ ?_ ?_
        · have restored := Multiset.cons_erase isMapped
          rw [← Multiset.singleton_add, add_comm] at restored
          rw [add_zero]
          exact restored
        · rw [isHeld, ← Multiset.singleton_add]
          change chunkRegions rest + 0 + 0 + {(chunk, chunkSize)} =
            {(chunk, chunkSize)} + chunkRegions rest + 0 + 0 + 0
          abel
        · exact Multiset.nodup_of_le (Multiset.map_le_map (Multiset.erase_le _ _)) inv.nodup

end MallocSurvey.Ltalloc
