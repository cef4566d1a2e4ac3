import MallocSurvey.Ltalloc.BatchStack

/-! # The stack after failures

A thread that gets no chunk keeps a counter of one with an empty list. Its next batch has one
block only, so the chunks can have more batches than they have room for. -/

namespace MallocSurvey.Ltalloc

open Library

variable {threads : Nat} {state middle next : BatchState threads} {thread : Fin threads}

/-- The calls of one thread lead to another state. -/
structure Turned (state next : BatchState threads) (thread : Fin threads) (tc : ThreadCache)
    (cc : CentralCache) (live : Nat) : Prop where
  leads : (batchMachine threads).Leads (fun _ _ => True) state next
  caches : next.cs.caches = Function.update state.cs.caches thread tc
  central : next.cs.central = cc
  live : next.cs.live.card = live
  fetching : next.fetching = state.fetching

namespace Turned

variable {tc newTc : ThreadCache} {cc newCc : CentralCache} {live newLive : Nat}

theorem trans (left : Turned state middle thread tc cc live)
    (right : Turned middle next thread newTc newCc newLive) :
    Turned state next thread newTc newCc newLive where
  leads := left.leads.trans right.leads
  caches := by rw [right.caches, left.caches, Function.update_idem]
  central := right.central
  live := right.live
  fetching := right.fetching.trans left.fetching

theorem cache (turned : Turned state next thread tc cc live) : next.cs.caches thread = tc := by
  rw [turned.caches, Function.update_self]

end Turned

/-! ## Single calls -/

theorem free_once {made : Nat → ThreadCache} {cc : CentralCache} (live : Nat)
    (idle : state.fetching thread = false) (inUse : state.cs.live.card = live + 1)
    (outcome : ∀ block, ltfree smallestClass block (state.cs.caches thread) state.cs.central =
      some (made block, cc)) :
    ∃ next block, Turned state next thread (made block) cc live := by
  obtain ⟨block, isLive⟩ := Multiset.card_pos_iff_exists_mem.mp
    (show 0 < state.cs.live.card by omega)
  have isStep : state.step (.free thread block) =
      some { state with
        cs := { state.cs with
          caches := Function.update state.cs.caches thread (made block)
          central := cc
          live := state.cs.live.erase block }
        log := freeLog (state.cs.caches thread) state.log } := by
    unfold BatchState.step
    dsimp only
    rw [outcome block]
    rfl
  have enabled : (batchMachine threads).Enabled state (.free thread block) := ⟨idle, isLive⟩
  refine ⟨_, block, .single enabled trivial isStep, rfl, rfl, ?_, rfl⟩
  rw [Multiset.card_erase_of_mem isLive, inUse]
  rfl

theorem malloc_once {block : Nat} {tc : ThreadCache} {cc : CentralCache}
    (idle : state.fetching thread = false)
    (outcome : ltmalloc smallestClass (state.cs.caches thread) state.cs.central
      state.lastWord = some (.block block tc cc)) :
    ∃ next, Turned state next thread tc cc (state.cs.live.card + 1) := by
  have isStep : state.step (.malloc thread) = some (state.fetched thread
      (mallocLog (state.cs.caches thread) state.cs.central state.log)
      (.block block tc cc)) := by
    unfold BatchState.step
    dsimp only
    rw [outcome]
    rfl
  have enabled : (batchMachine threads).Enabled state (.malloc thread) := idle
  refine ⟨_, .single enabled trivial isStep, rfl, rfl, Multiset.card_cons _ _, ?_⟩
  change Function.update state.fetching thread false = state.fetching
  rw [← idle]
  exact Function.update_eq_self _ _

/-! ## Many calls -/

theorem free_many {blocks temp : List Nat} {counter : Int} (live count : Nat)
    (idle : state.fetching thread = false)
    (isCache : state.cs.caches thread = ⟨blocks, temp, counter⟩)
    (enough : (count : Int) ≤ counter) (inUse : state.cs.live.card = live + count) :
    ∃ next freed, freed.length = blocks.length + count ∧
      Turned state next thread ⟨freed, temp, counter - count⟩ state.cs.central live := by
  induction count generalizing state blocks counter with
  | zero =>
      refine ⟨state, blocks, rfl, .refl, ?_, rfl, inUse, rfl⟩
      rw [show counter - ((0 : Nat) : Int) = counter by omega, ← isCache]
      exact (Function.update_eq_self _ _).symm
  | succ count induction =>
      have outcome : ∀ block, ltfree smallestClass block (state.cs.caches thread)
          state.cs.central = some (⟨block :: blocks, temp, counter - 1⟩, state.cs.central) := by
        intro block
        rw [isCache]
        unfold ltfree
        dsimp only
        rw [if_neg (by omega)]
        rfl
      obtain ⟨middle, block, first⟩ := free_once (live + count) idle (by omega) outcome
      obtain ⟨next, freed, length, rest⟩ := @induction middle (block :: blocks) (counter - 1)
        (by rw [first.fetching]; exact idle) first.cache (by omega) first.live
      rw [first.central] at rest
      refine ⟨next, freed, by rw [length, List.length_cons]; omega, ?_⟩
      rw [show counter - ((count + 1 : Nat) : Int) = counter - 1 - count by omega]
      exact first.trans rest

theorem malloc_many {blocks temp : List Nat} {counter : Int} (count : Nat)
    (idle : state.fetching thread = false)
    (isCache : state.cs.caches thread = ⟨blocks, temp, counter⟩)
    (enough : blocks.length = count) :
    ∃ next, Turned state next thread ⟨[], temp, counter + count⟩ state.cs.central
      (state.cs.live.card + count) := by
  induction count generalizing state blocks counter with
  | zero =>
      rw [List.length_eq_zero_iff.mp enough] at isCache
      refine ⟨state, .refl, ?_, rfl, rfl, rfl⟩
      rw [show counter + ((0 : Nat) : Int) = counter by omega, ← isCache]
      exact (Function.update_eq_self _ _).symm
  | succ count induction =>
      cases blocks with
      | nil => cases enough
      | cons block rest =>
          have outcome : ltmalloc smallestClass (state.cs.caches thread) state.cs.central
              state.lastWord =
                some (.block block ⟨rest, temp, counter + 1⟩ state.cs.central) := by
            rw [isCache]
            rfl
          obtain ⟨middle, first⟩ := malloc_once idle outcome
          obtain ⟨next, others⟩ := @induction middle rest (counter + 1)
            (by rw [first.fetching]; exact idle) first.cache (Nat.succ.inj enough)
          rw [first.central, first.live] at others
          refine ⟨next, ?_⟩
          rw [show counter + ((count + 1 : Nat) : Int) = counter + 1 + count by omega,
            show state.cs.live.card + (count + 1) = state.cs.live.card + 1 + count by omega]
          exact first.trans others

/-! ## A batch of one block -/

/-- The free list becomes the list to be added next. -/
theorem flush_once {blocks temp : List Nat} {after : CentralCache} (live : Nat)
    (idle : state.fetching thread = false)
    (isCache : state.cs.caches thread = ⟨blocks, temp, 0⟩)
    (inUse : state.cs.live.card = live + 1)
    (flushed : flushTempList smallestClass ⟨blocks, temp, -1⟩ state.cs.central = some after) :
    ∃ next block, Turned state next thread ⟨[block], blocks, 255⟩ after live := by
  apply free_once live idle inUse
  intro block
  rw [isCache]
  unfold ltfree
  dsimp only
  rw [if_pos (by decide)]
  unfold moveToCentralCache
  rw [show (0 : Int) - 1 = -1 from rfl, flushed]
  rfl

/-- A thread that got no chunk frees blocks until it is about to add a batch of one. -/
theorem short_batch (live : Nat) (idle : state.fetching thread = false)
    (isCache : state.cs.caches thread = .fetching)
    (inUse : state.cs.live.card = live + 257) :
    ∃ next freed block, freed.length = 256 ∧
      Turned state next thread ⟨freed, [block], 0⟩ state.cs.central live := by
  obtain ⟨first, one, oneLength, firstTurn⟩ := free_many (live + 256) 1 idle isCache
    (by decide) (by omega)
  obtain ⟨block, rfl⟩ := List.length_eq_one_iff.mp oneLength
  obtain ⟨second, other, secondTurn⟩ := flush_once (live + 255)
    (by rw [firstTurn.fetching]; exact idle) firstTurn.cache (by rw [firstTurn.live]) rfl
  obtain ⟨third, freed, length, thirdTurn⟩ := free_many live 255
    (by rw [secondTurn.fetching, firstTurn.fetching]; exact idle) secondTurn.cache (by decide)
    secondTurn.live
  rw [secondTurn.central, firstTurn.central] at thirdTurn
  exact ⟨third, freed, block, length, (firstTurn.trans secondTurn).trans thirdTurn⟩

/-- It adds the batch and takes its other blocks back. -/
theorem add_short {live : Nat} {after : Nat → CentralCache}
    (idle : state.fetching thread = false) (isCache : state.cs.caches thread = .fetching)
    (inUse : state.cs.live.card = live + 258)
    (added : ∀ block,
      addBatchToCentralCache smallestClass state.cs.central [block] = some (after block)) :
    ∃ next tc block, Turned state next thread tc (after block) (live + 257) := by
  obtain ⟨first, freed, block, length, firstTurn⟩ := short_batch (live + 1) idle isCache
    (by omega)
  have firstIdle : first.fetching thread = false := by rw [firstTurn.fetching]; exact idle
  obtain ⟨second, other, secondTurn⟩ := flush_once live firstIdle firstTurn.cache firstTurn.live
    (by
      rw [firstTurn.central]
      unfold flushTempList
      rw [if_pos (List.cons_ne_nil _ _)]
      exact added block)
  have secondIdle : second.fetching thread = false := by
    rw [secondTurn.fetching]
    exact firstIdle
  obtain ⟨third, thirdTurn⟩ := malloc_many 1 secondIdle secondTurn.cache rfl
  have thirdIdle : third.fetching thread = false := by
    rw [thirdTurn.fetching]
    exact secondIdle
  cases freed with
  | nil => cases length
  | cons head rest =>
      have outcome : ltmalloc smallestClass (third.cs.caches thread) third.cs.central
          third.lastWord = some (.block head ⟨rest, [], 1⟩ third.cs.central) := by
        rw [thirdTurn.cache]
        rfl
      obtain ⟨fourth, fourthTurn⟩ := malloc_once thirdIdle outcome
      have fourthIdle : fourth.fetching thread = false := by
        rw [fourthTurn.fetching]
        exact thirdIdle
      obtain ⟨fifth, fifthTurn⟩ := malloc_many 255 fourthIdle fourthTurn.cache
        (Nat.succ.inj length)
      have all := (((firstTurn.trans secondTurn).trans thirdTurn).trans fourthTurn).trans fifthTurn
      rw [fourthTurn.central, thirdTurn.central, secondTurn.central, fourthTurn.live,
        thirdTurn.live, secondTurn.live] at all
      exact ⟨fifth, _, block, all⟩

/-! ## Every block is in use -/

/-- No thread can get a block from the central cache. -/
structure Drained (cc : CentralCache) : Prop where
  batches : takeBatch smallestClass cc = some none
  freeList : cc.freeList = []
  uncarved : cc.freeBlocksInLastChunk = 0

theorem drained_of_needChunk {tc waiting : ThreadCache} {cc : CentralCache}
    {lastWord : Nat → Nat}
    (result : ltmalloc smallestClass tc cc lastWord = some (.needChunk waiting)) :
    Drained cc := by
  have notHanded : ∀ (blocks : List Nat) (tc : ThreadCache) (given : CentralCache),
      handOut blocks tc given ≠ some (.needChunk waiting) := by
    intro blocks tc given handed
    cases blocks with
    | nil => cases handed
    | cons first rest => cases handed
  unfold ltmalloc at result
  split at result
  · cases result
  · unfold fetchFromCentralCache at result
    split at result
    · split at result
      · exact absurd result (notHanded _ _ _)
      · cases result
    · split at result
      · dsimp only at result
        cases taken : takeBatch smallestClass cc with
        | none =>
            rw [taken] at result
            cases result
        | some batch =>
            rw [taken] at result
            cases batch with
            | some batch => exact absurd result (notHanded _ _ _)
            | none =>
                dsimp only at result
                unfold noFreeBatch at result
                by_cases loose : cc.freeList ≠ []
                · rw [if_pos loose] at result
                  unfold takeFreeList at result
                  dsimp only at result
                  split at result
                  · split at result
                    · exact absurd result (notHanded _ _ _)
                    · split at result
                      · exact absurd result (notHanded _ _ _)
                      · cases result
                  · cases result
                · rw [if_neg loose] at result
                  by_cases uncarved : cc.freeBlocksInLastChunk ≠ 0
                  · rw [if_pos uncarved] at result
                    unfold carveLastChunk at result
                    dsimp only at result
                    generalize (if cc.freeBlocksInLastChunk < batchSize smallestClass + 1 then
                      ((batchSize smallestClass + 1 : Nat) : Int) - cc.freeBlocksInLastChunk + 1
                      else (1 : Int)) = counter at result
                    simp only [carve_count] at result
                    generalize min cc.freeBlocksInLastChunk (batchSize smallestClass + 1) =
                      carved at result
                    split at result
                    · split at result
                      · split at result
                        · exact absurd result (notHanded _ _ _)
                        · cases result
                      · exact absurd result (notHanded _ _ _)
                    · cases result
                  · exact ⟨taken, not_not.mp loose, not_not.mp uncarved⟩
      · cases result

theorem Drained.needChunk {cc : CentralCache} (drained : Drained cc) (lastWord : Nat → Nat) :
    ltmalloc smallestClass .initial cc lastWord = some (.needChunk .fetching) := by
  unfold ltmalloc ThreadCache.initial
  dsimp only
  unfold fetchFromCentralCache
  rw [if_neg (by simp), if_pos (.inl rfl)]
  dsimp only
  rw [drained.batches]
  dsimp only
  unfold noFreeBatch
  rw [if_neg (not_not.mpr drained.freeList), if_neg (not_not.mpr drained.uncarved)]
  rfl

theorem smallestClass_blocks : numBlocksInChunk smallestClass = 8152 := by decide

theorem blocks_card {state : BatchState threads} (single : state.cs.chunks.length = 1) :
    Multiset.card (state.cs.blocks smallestClass) = 8152 := by
  obtain ⟨chunk, isSingle⟩ := List.length_eq_one_iff.mp single
  unfold ClassState.blocks
  rw [isSingle, Multiset.coe_card, List.flatMap_singleton, chunkBlocks, run_length]
  exact smallestClass_blocks

theorem live_card_le {state : BatchState threads} (kept : BatchKept state)
    (single : state.cs.chunks.length = 1) : state.cs.live.card ≤ 8152 := by
  obtain ⟨tails, inv⟩ := kept.inv
  rw [← blocks_card single, ← inv.ledger]
  simp only [Multiset.card_add]
  omega

/-- A drained central cache stores nothing. -/
theorem stock_of_drained {cc : CentralCache} {chunks tails : List Nat} {lastWord : Nat → Nat}
    (inv : CentralInv smallestClass cc chunks lastWord tails) (single : chunks.length = 1)
    (drained : Drained cc) :
    cc.stock smallestClass tails = 0 ∧ cc.chunksBefore = [] ∧
      ∃ chunk, cc.chunksFrom = [⟨chunk, []⟩] := by
  have store := inv.store smallestClass_small
  have noTails : tails = [] := by
    rcases inv.tails.last with ⟨isEmpty, _⟩ | ⟨rest, isCons, count⟩
    · exact isEmpty
    · obtain ⟨chunk, isChunk, blocks, positive, inChunk, isTail⟩ :=
        inv.tails.position cc.lastChunk (isCons ▸ List.mem_cons_self)
      rw [isTail, blocksFrom_tailStart smallestClass_served.geometry (inv.aligned chunk isChunk).1
        inChunk.le positive, drained.uncarved] at count
      omega
  have count := store.count
  rw [single] at count
  have taken := drained.batches
  unfold takeBatch at taken
  rw [if_pos smallestClass_small] at taken
  cases fromEq : cc.chunksFrom with
  | nil =>
      rw [fromEq, store.null fromEq] at count
      cases count
  | cons cs others =>
      rw [fromEq, List.length_cons] at count
      have noBefore : cc.chunksBefore = [] := List.length_eq_zero_iff.mp (by omega)
      have noOthers : others = [] := List.length_eq_zero_iff.mp (by omega)
      rw [fromEq, noBefore] at taken
      have noBatches : cs.batches = [] := by
        cases csBatches : cs.batches with
        | nil => rfl
        | cons batch rest =>
            dsimp only at taken
            rw [csBatches] at taken
            cases taken
      refine ⟨?_, noBefore, cs.chunk, ?_⟩
      · rw [CentralCache.stock, batches_of_small _ smallestClass_small, fromEq, noBefore,
          noOthers, drained.freeList, noTails]
        simp [noBatches]
      · rw [noOthers, ← noBatches]

/-- One thread has all blocks of the only chunk handed out and waits for another. -/
structure Exhausted (state : BatchState threads) (thread : Fin threads) : Prop where
  drained : Drained state.cs.central
  before : state.cs.central.chunksBefore = []
  current : ∃ chunk, state.cs.central.chunksFrom = [⟨chunk, []⟩]
  live : state.cs.live.card = 8152
  others : ∀ other, other ≠ thread →
    state.cs.caches other = .initial ∧ state.fetching other = false

theorem exhaust {state : BatchState threads} (count : Nat)
    (reached : (batchMachine threads).Reachable NoFailure state)
    (single : state.cs.chunks.length = 1) (idle : state.fetching thread = false)
    (others : ∀ other, other ≠ thread →
      state.cs.caches other = .initial ∧ state.fetching other = false)
    (left : state.cs.live.card + count = 8152) :
    ∃ next, (batchMachine threads).Reachable NoFailure next ∧ Exhausted next thread := by
  induction count using Nat.strongRecOn generalizing state with
  | ind count induction =>
      have kept := batchKept_of_reachable reached
      obtain ⟨tails, inv⟩ := kept.inv
      have geometry := smallestClass_served.geometry
      have enabled : (batchMachine threads).Enabled state (.malloc thread) := idle
      rcases inv.malloc geometry idle (fun takes => absurd kept.noLoose takes.2.2.2) with
        ⟨block, tc, cc, _, outcome, _⟩ | ⟨outcome, _⟩
      · have isStep : (batchMachine threads).step state (.malloc thread) = some (state.fetched
            thread (mallocLog (state.cs.caches thread) state.cs.central state.log)
            (.block block tc cc)) := congrArg (Option.map _) outcome
        have nextReached := reached.step enabled trivial isStep
        have nextCard : (block ::ₘ state.cs.live).card = state.cs.live.card + 1 :=
          Multiset.card_cons _ _
        have bound := live_card_le (batchKept_of_reachable nextReached) single
        change (block ::ₘ state.cs.live).card ≤ 8152 at bound
        refine induction (count - 1) (by omega) nextReached single (Function.update_self ..) ?_
          (show (block ::ₘ state.cs.live).card + (count - 1) = 8152 by omega)
        intro other different
        obtain ⟨isInitial, otherIdle⟩ := others other different
        exact ⟨(Function.update_of_ne different _ _).trans isInitial,
          (Function.update_of_ne different _ _).trans otherIdle⟩
      · have isStep : (batchMachine threads).step state (.malloc thread) = some (state.fetched
            thread (mallocLog (state.cs.caches thread) state.cs.central state.log)
            (.needChunk .fetching)) := congrArg (Option.map _) outcome
        have nextReached := reached.step enabled trivial isStep
        have drained := drained_of_needChunk outcome
        obtain ⟨nextTails, nextInv⟩ := (batchKept_of_reachable nextReached).inv
        obtain ⟨noStock, before, current⟩ := stock_of_drained nextInv.central single drained
        have nextOthers : ∀ other, other ≠ thread →
            (Function.update state.cs.caches thread .fetching) other = .initial ∧
              (Function.update state.fetching thread true) other = false := by
          intro other different
          obtain ⟨isInitial, otherIdle⟩ := others other different
          exact ⟨(Function.update_of_ne different _ _).trans isInitial,
            (Function.update_of_ne different _ _).trans otherIdle⟩
        have noCached : ∑ other, ((Function.update state.cs.caches thread .fetching) other).stock
            = 0 := by
          apply Finset.sum_eq_zero
          intro other _
          by_cases same : other = thread
          · rw [same, Function.update_self]
            rfl
          · rw [(nextOthers other same).1]
            rfl
        have ledger := congrArg Multiset.card nextInv.ledger
        have nothing : (state.fetched thread (mallocLog (state.cs.caches thread)
            state.cs.central state.log) (.needChunk .fetching)).cs.cached = 0 := noCached
        rw [noStock, nothing, add_zero, add_zero, add_zero] at ledger
        have all := @blocks_card _ (state.fetched thread (mallocLog (state.cs.caches thread)
          state.cs.central state.log) (.needChunk .fetching)) single
        exact ⟨_, nextReached, drained, before, current, ledger.trans all, nextOthers⟩

theorem createChunk_effect {chunk : Nat}
    (result : state.step (.createChunk thread chunk) = some next) :
    next.cs.chunks = chunk :: state.cs.chunks ∧
      next.fetching = Function.update state.fetching thread false ∧
      (∃ tc, next.cs.caches = Function.update state.cs.caches thread tc) ∧
      next.cs.live.card = state.cs.live.card + 1 := by
  unfold BatchState.step at result
  obtain ⟨⟨outcome, words⟩, inserted, result⟩ := Option.bind_eq_some_iff.mp result
  cases result
  cases outcome with
  | block block tc cc => exact ⟨rfl, rfl, ⟨tc, rfl⟩, Multiset.card_cons _ _⟩
  | needChunk tc =>
      unfold insertChunk at inserted
      dsimp only at inserted
      split at inserted
      · generalize run _ _ _ = blocks at inserted
        cases blocks with
        | nil => cases inserted
        | cons first rest => cases inserted
      · cases inserted

/-- The first thread gets a chunk and all its blocks. -/
theorem exhausted_reached (thread : Fin threads) :
    ∃ state, (batchMachine threads).Reachable NoFailure state ∧ Exhausted state thread := by
  have start : (batchMachine threads).Reachable NoFailure
      ⟨.initial threads, fun _ => false, fun _ => 0, []⟩ := .init ⟨fun _ => 0, rfl⟩
  have drained : Drained CentralCache.initial := ⟨rfl, rfl, rfl⟩
  have isStep : (batchMachine threads).step ⟨.initial threads, fun _ => false, fun _ => 0, []⟩
      (.malloc thread) = some (BatchState.fetched ⟨.initial threads, fun _ => false, fun _ => 0,
        []⟩ thread (mallocLog .initial .initial []) (.needChunk .fetching)) :=
    congrArg (Option.map _) (drained.needChunk fun _ => 0)
  have startEnabled : (batchMachine threads).Enabled
      ⟨.initial threads, fun _ => false, fun _ => 0, []⟩ (.malloc thread) := rfl
  have waiting := start.step startEnabled trivial isStep
  have enabled : (batchMachine threads).Enabled (BatchState.fetched ⟨.initial threads,
      fun _ => false, fun _ => 0, []⟩ thread (mallocLog .initial .initial [])
      (.needChunk .fetching)) (.createChunk thread chunkSize) :=
    ⟨Function.update_self .., Nat.mod_self _, by decide, nofun⟩
  obtain ⟨next, created, _⟩ := @BatchKept.step _ _ (.createChunk thread chunkSize)
    (batchKept_of_reachable waiting) enabled trivial
  obtain ⟨chunks, fetching, ⟨tc, caches⟩, live⟩ := createChunk_effect created
  have reached := waiting.step enabled trivial created
  refine exhaust 8151 reached (by rw [chunks]; rfl) (by rw [fetching, Function.update_self]) ?_
    (by rw [live]; rfl)
  intro other different
  rw [fetching, caches, Function.update_of_ne different, Function.update_of_ne different]
  exact ⟨Function.update_of_ne different _ _, Function.update_of_ne different _ _⟩

/-! ## Thirty-three threads get no chunk -/

/-- The threads after the first one up to some number have asked in vain. -/
structure Refused (state : BatchState threads) (upTo : Nat) : Prop where
  drained : Drained state.cs.central
  before : state.cs.central.chunksBefore = []
  current : ∃ chunk, state.cs.central.chunksFrom = [⟨chunk, []⟩]
  live : state.cs.live.card = 8152
  refused : ∀ thread, 0 < thread.val → thread.val ≤ upTo →
    state.cs.caches thread = .fetching ∧ state.fetching thread = false
  others : ∀ thread, upTo < thread.val →
    state.cs.caches thread = .initial ∧ state.fetching thread = false

theorem refused_reached (upTo : Nat) (inRange : upTo < threads) :
    ∃ state, (batchMachine threads).Reachable (fun _ _ => True) state ∧ Refused state upTo := by
  induction upTo with
  | zero =>
      obtain ⟨state, reached, exhausted⟩ := exhausted_reached (⟨0, inRange⟩ : Fin threads)
      refine ⟨state, reached.mono fun _ _ _ => trivial, exhausted.drained, exhausted.before,
        exhausted.current, exhausted.live, fun thread above upTo => by omega, ?_⟩
      intro thread above
      apply exhausted.others
      rintro rfl
      exact absurd above (Nat.lt_irrefl 0)
  | succ upTo induction =>
      obtain ⟨state, reached, refused⟩ := induction (by omega)
      let thread : Fin threads := ⟨upTo + 1, inRange⟩
      obtain ⟨isInitial, idle⟩ := refused.others thread (Nat.lt_succ_self upTo)
      have outcome := refused.drained.needChunk state.lastWord
      rw [← isInitial] at outcome
      have isStep : (batchMachine threads).step state (.malloc thread) = some (state.fetched thread
          (mallocLog (state.cs.caches thread) state.cs.central state.log)
          (.needChunk .fetching)) := congrArg (Option.map _) outcome
      have enabled : (batchMachine threads).Enabled state (.malloc thread) := idle
      have waiting := reached.step enabled trivial isStep
      have waits : (batchMachine threads).Enabled (state.fetched thread
          (mallocLog (state.cs.caches thread) state.cs.central state.log)
          (.needChunk .fetching)) (.chunkFails thread) := Function.update_self ..
      refine ⟨_, waiting.step waits trivial rfl, refused.drained, refused.before,
        refused.current, refused.live, ?_, ?_⟩
      · intro other above atMost
        by_cases same : other = thread
        · subst same
          exact ⟨Function.update_self .., Function.update_self ..⟩
        · have different : other.val ≠ upTo + 1 := fun equal => same (Fin.ext equal)
          obtain ⟨cache, otherIdle⟩ := refused.refused other above (by omega)
          refine ⟨(Function.update_of_ne same _ _).trans cache, ?_⟩
          exact (Function.update_of_ne same _ _).trans
            ((Function.update_of_ne same _ _).trans otherIdle)
      · intro other above
        have same : other ≠ thread := by
          rintro rfl
          exact absurd above (Nat.lt_irrefl _)
        obtain ⟨cache, otherIdle⟩ := refused.others other (by omega)
        refine ⟨(Function.update_of_ne same _ _).trans cache, ?_⟩
        exact (Function.update_of_ne same _ _).trans
          ((Function.update_of_ne same _ _).trans otherIdle)

/-! ## They add more batches than there is room for -/

/-- Some of the threads have added a batch of one block each to the only chunk. -/
structure Shortened (state : BatchState threads) (upTo : Nat) : Prop where
  before : state.cs.central.chunksBefore = []
  current : ∃ cs, state.cs.central.chunksFrom = [cs] ∧ cs.batches.length = upTo
  live : state.cs.live.card + upTo = 8152
  others : ∀ thread, upTo < thread.val →
    state.cs.caches thread = .fetching ∧ state.fetching thread = false

theorem shortened_reached (upTo : Nat) (inRange : upTo < threads)
    (fits : upTo ≤ numOfBatchesInChunkSm) :
    ∃ state : BatchState threads,
      (batchMachine threads).Reachable (fun _ _ => True) state ∧ Shortened state upTo := by
  have few : numOfBatchesInChunkSm = 32 := rfl
  induction upTo with
  | zero =>
      obtain ⟨state, reached, refused⟩ := @refused_reached threads (threads - 1) (by omega)
      obtain ⟨chunk, current⟩ := refused.current
      refine ⟨state, reached, refused.before, ⟨_, current, rfl⟩, refused.live, ?_⟩
      intro thread above
      exact refused.refused thread above (by have := thread.isLt; omega)
  | succ upTo induction =>
      obtain ⟨state, reached, shortened⟩ := induction (by omega) (by omega)
      obtain ⟨cs, current, length⟩ := shortened.current
      let thread : Fin threads := ⟨upTo + 1, inRange⟩
      obtain ⟨isCache, idle⟩ := shortened.others thread (Nat.lt_succ_self upTo)
      have live := shortened.live
      have added : ∀ block, addBatchToCentralCache smallestClass state.cs.central [block] =
          some { state.cs.central with
            chunksFrom := [{ cs with batches := [block] :: cs.batches }] } := by
        intro block
        unfold addBatchToCentralCache
        rw [if_pos smallestClass_small, current]
        exact if_neg (by omega)
      obtain ⟨next, tc, block, turned⟩ := @add_short _ _ _ (7894 - upTo) _ idle
        isCache (by omega) added
      refine ⟨next, reached.leads turned.leads, ?_, ?_, ?_, ?_⟩
      · rw [turned.central]
        exact shortened.before
      · rw [turned.central]
        exact ⟨_, rfl, by rw [List.length_cons, length]⟩
      · rw [turned.live]
        omega
      · intro other above
        have different : other ≠ thread := by
          rintro rfl
          exact absurd above (Nat.lt_irrefl _)
        rw [turned.caches, turned.fetching, Function.update_of_ne different]
        exact shortened.others other (by omega)

/-- Thirty-three threads that got no chunk make the stack of a single chunk overflow. -/
theorem failures_overflow :
    ¬ ∀ state, (batchMachine 34).Reachable (fun _ _ => True) state → FaithfulStack state := by
  intro faithful
  obtain ⟨state, reached, shortened⟩ := @shortened_reached 34 32 (by decide) (by decide)
  obtain ⟨isCache, idle⟩ := shortened.others 33 (by decide)
  obtain ⟨cs, current, length⟩ := shortened.current
  have live := shortened.live
  obtain ⟨next, freed, block, _, turned⟩ := short_batch 7863 idle isCache (by omega)
  have adds := (faithful next (reached.leads turned.leads)).adds 33
  rw [turned.cache, turned.central] at adds
  apply adds (show (0 : Int) - 1 < 0 by decide)
  unfold flushTempList addBatchToCentralCache
  rw [if_pos (List.cons_ne_nil _ _), if_pos smallestClass_small, current]
  exact if_pos length

/-- Two threads on the class; one of them has just got its first chunk. -/
theorem stack_faithful_exhausted :
    ∃ state : BatchState 2, Exhausted state 0 ∧
      FaithfulStack state ∧ (batchMachine 2).Safe NoFailure state := by
  obtain ⟨state, reached, exhausted⟩ := exhausted_reached (0 : Fin 2)
  exact ⟨state, exhausted, stack_faithful reached⟩

end MallocSurvey.Ltalloc
