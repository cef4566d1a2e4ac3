import MallocSurvey.Ltalloc.ClassInvariant

/-! # The stack of batches in the chunks of the smallest blocks

The batches are a stack over the chunks. A ghost log records which batches the calls put on
it and take from it. -/

namespace MallocSurvey.Ltalloc

open Library

/-- The class of the blocks of `sizeof(void*)` bytes. -/
def smallestClass : Nat := getSizeClass 1

theorem smallestClass_served : Served smallestClass :=
  getSizeClass_served (by decide) (by decide)

theorem smallestClass_small : chunkIsSmall smallestClass = true := by decide

/-- The batches from the top on. -/
def CentralCache.stack (cc : CentralCache) : List (List Nat) :=
  match cc.chunksFrom with
  | [] => []
  | cs :: _ => cs.batches ++ cc.chunksBefore.flatMap ChunkSm.batches

inductive BatchOp
  | added (batch : List Nat)
  | fetched (batch : List Nat)

/-- The stack after some operations, the last one in front; a batch can only be fetched from
the top. -/
def replay : List BatchOp → Option (List (List Nat))
  | [] => some []
  | .added batch :: older => (replay older).map (batch :: ·)
  | .fetched batch :: older =>
      match replay older with
      | some (top :: rest) => if top = batch then some rest else none
      | _ => none

/-- What a call of `ltmalloc` fetches. -/
def mallocLog (tc : ThreadCache) (cc : CentralCache) (log : List BatchOp) : List BatchOp :=
  if tc.freeList = [] ∧ tc.tempList = [] then
    match takeBatch smallestClass cc with
    | some (some (batch, _)) => .fetched batch :: log
    | _ => log
  else log

/-- What a call of `ltfree` adds. -/
def freeLog (tc : ThreadCache) (log : List BatchOp) : List BatchOp :=
  if tc.counter - 1 < 0 ∧ tc.tempList ≠ [] then .added tc.tempList :: log else log

/-! ## The machine -/

structure BatchState (threads : Nat) where
  cs : ClassState threads
  /-- The threads that have left `fetch_from_central_cache` to allocate a chunk. -/
  fetching : Fin threads → Bool
  lastWord : Nat → Nat
  log : List BatchOp

inductive BatchEvent (threads : Nat)
  | malloc (thread : Fin threads)
  | createChunk (thread : Fin threads) (chunk : Nat)
  /-- There is no memory for a chunk. -/
  | chunkFails (thread : Fin threads)
  | free (thread : Fin threads) (block : Nat)

variable {threads : Nat}

namespace BatchState

def fetched (state : BatchState threads) (thread : Fin threads) (log : List BatchOp) :
    Fetched → BatchState threads
  | .block block tc cc =>
      { state with
        cs := { state.cs with
          caches := Function.update state.cs.caches thread tc
          central := cc
          live := block ::ₘ state.cs.live }
        fetching := Function.update state.fetching thread false
        log := log }
  | .needChunk tc =>
      { state with
        cs := { state.cs with caches := Function.update state.cs.caches thread tc }
        fetching := Function.update state.fetching thread true
        log := log }

def step (state : BatchState threads) : BatchEvent threads → Option (BatchState threads)
  | .malloc thread =>
      let tc := state.cs.caches thread
      (ltmalloc smallestClass tc state.cs.central state.lastWord).map
        (state.fetched thread (mallocLog tc state.cs.central state.log))
  | .createChunk thread chunk => do
      let lastWord := Function.update state.lastWord (chunk + chunkSize) 0
      let (outcome, lastWord) ← insertChunk smallestClass chunk (state.cs.caches thread)
        state.cs.central lastWord
      return { state with
        cs := { state.cs with chunks := chunk :: state.cs.chunks }
        lastWord := lastWord }.fetched thread state.log outcome
  | .chunkFails thread =>
      some { state with fetching := Function.update state.fetching thread false }
  | .free thread block => do
      let tc := state.cs.caches thread
      let (newTc, cc) ← ltfree smallestClass block tc state.cs.central
      return { state with
        cs := { state.cs with
          caches := Function.update state.cs.caches thread newTc
          central := cc
          live := state.cs.live.erase block }
        log := freeLog tc state.log }

def Enabled (state : BatchState threads) : BatchEvent threads → Prop
  | .malloc thread => state.fetching thread = false
  | .createChunk thread chunk =>
      state.fetching thread = true ∧ chunk % chunkSize = 0 ∧ chunk ≠ 0 ∧
        chunk ∉ state.cs.chunks
  | .chunkFails thread => state.fetching thread = true
  | .free thread block => state.fetching thread = false ∧ block ∈ state.cs.live

end BatchState

/-- The calls of any number of threads on the smallest class. -/
def batchMachine (threads : Nat) : Machine (BatchState threads) (BatchEvent threads) where
  Init state := ∃ lastWord, state = ⟨.initial threads, fun _ => false, lastWord, []⟩
  Enabled := BatchState.Enabled
  step := BatchState.step

/-- The chunks before the one with free batches are full and those after it are empty. The
batches are the stack that the calls have made. No call follows a null pointer. -/
structure FaithfulStack (state : BatchState threads) : Prop where
  full : ∀ chunk ∈ state.cs.central.chunksBefore,
    chunk.batches.length = numOfBatchesInChunkSm
  empty : ∀ chunk ∈ state.cs.central.chunksFrom.tail, chunk.batches = []
  lifo : replay state.log = some state.cs.central.stack
  fetches : takeBatch smallestClass state.cs.central ≠ none
  adds : ∀ thread, (state.cs.caches thread).counter - 1 < 0 →
    flushTempList smallestClass (state.cs.caches thread) state.cs.central ≠ none

def NoFailure (_ : BatchState threads) : BatchEvent threads → Prop
  | .chunkFails _ => False
  | _ => True

/-! ## The stack -/

variable {tc newTc : ThreadCache} {cc newCc : CentralCache} {chunks : List Nat}
  {lastWord : Nat → Nat} {log : List BatchOp}

theorem takeBatch_stack (store : SmallStore cc.chunksBefore cc.chunksFrom chunks) :
    takeBatch smallestClass cc = some none ∨
      ∃ batch after, takeBatch smallestClass cc = some (some (batch, after)) ∧
        cc.stack = batch :: after.stack ∧ after.freeList = cc.freeList := by
  unfold takeBatch
  rw [if_pos smallestClass_small]
  cases fromEq : cc.chunksFrom with
  | nil => exact .inl rfl
  | cons cs others =>
      cases csBatches : cs.batches with
      | cons batch rest =>
          refine .inr ⟨batch, { cc with chunksFrom := { cs with batches := rest } :: others },
            by simp only [csBatches], ?_, rfl⟩
          unfold CentralCache.stack
          rw [fromEq]
          dsimp only
          rw [csBatches, List.cons_append]
      | nil =>
          cases beforeEq : cc.chunksBefore with
          | nil => exact .inl (by simp only [csBatches])
          | cons prev before =>
              rw [beforeEq] at store
              have prevFull := store.full prev List.mem_cons_self
              cases prevBatches : prev.batches with
              | nil =>
                  rw [prevBatches] at prevFull
                  cases prevFull
              | cons batch rest =>
                  refine .inr ⟨batch, { cc with
                      chunksBefore := before
                      chunksFrom := { prev with batches := rest } :: cs :: others },
                    by simp only [csBatches, if_pos prevFull]; rw [prevBatches], ?_, rfl⟩
                  unfold CentralCache.stack
                  rw [fromEq, beforeEq]
                  dsimp only
                  rw [csBatches, List.nil_append, List.flatMap_cons, prevBatches,
                    List.cons_append]

theorem addBatch_stack {batch : List Nat} {after : CentralCache}
    (store : SmallStore cc.chunksBefore cc.chunksFrom chunks)
    (added : addBatchToCentralCache smallestClass cc batch = some after) :
    after.stack = batch :: cc.stack ∧ after.freeList = cc.freeList := by
  unfold addBatchToCentralCache at added
  rw [if_pos smallestClass_small] at added
  cases fromEq : cc.chunksFrom with
  | nil =>
      rw [fromEq] at added
      cases added
  | cons cs others =>
      rw [fromEq] at added
      dsimp only at added
      by_cases isFull : cs.batches.length = numOfBatchesInChunkSm
      · rw [if_pos isFull] at added
        cases othersEq : others with
        | nil =>
            rw [othersEq] at added
            cases added
        | cons next rest =>
            rw [othersEq] at added
            rw [fromEq, othersEq] at store
            have nextEmpty := store.empty next List.mem_cons_self
            dsimp only at added
            rw [nextEmpty, if_pos List.length_nil] at added
            cases added
            refine ⟨?_, rfl⟩
            unfold CentralCache.stack
            rw [fromEq]
            dsimp only
            rw [List.flatMap_cons, List.singleton_append]
      · rw [if_neg isFull] at added
        cases added
        refine ⟨?_, rfl⟩
        unfold CentralCache.stack
        rw [fromEq]
        rfl

theorem linkChunk_stack (store : SmallStore cc.chunksBefore cc.chunksFrom chunks)
    (chunk : Nat) :
    (linkChunk smallestClass chunk cc).stack = cc.stack ∧
      (linkChunk smallestClass chunk cc).freeList = cc.freeList := by
  unfold linkChunk
  dsimp only
  rw [if_pos smallestClass_small]
  unfold insertChunkSm CentralCache.stack
  cases fromEq : cc.chunksFrom with
  | nil => exact ⟨by dsimp only; rw [store.null fromEq]; rfl, rfl⟩
  | cons cs others => exact ⟨rfl, rfl⟩

/-! ## The calls and the stack -/

theorem handOut_cc {blocks : List Nat} {block : Nat} {given : CentralCache}
    (handed : handOut blocks tc given = some (.block block newTc newCc)) : newCc = given := by
  cases blocks with
  | nil => cases handed
  | cons first rest =>
      cases handed
      rfl

/-- Carving does not touch the batches. -/
theorem noFreeBatch_stack (noLoose : cc.freeList = []) {block : Nat}
    (result : noFreeBatch smallestClass tc cc lastWord = some (.block block newTc newCc)) :
    newCc.stack = cc.stack ∧ newCc.freeList = [] := by
  unfold noFreeBatch at result
  rw [if_neg (not_not.mpr noLoose)] at result
  split at result
  · unfold carveLastChunk at result
    dsimp only at result
    generalize (if cc.freeBlocksInLastChunk < batchSize smallestClass + 1 then
      ((batchSize smallestClass + 1 : Nat) : Int) - cc.freeBlocksInLastChunk + 1
      else tc.counter) = counter at result
    simp only [carve_count] at result
    generalize min cc.freeBlocksInLastChunk (batchSize smallestClass + 1) = carved at result
    split at result
    · split at result
      · split at result
        · rw [handOut_cc result]
          exact ⟨rfl, noLoose⟩
        · cases result
      · rw [handOut_cc result]
        exact ⟨rfl, noLoose⟩
    · cases result
  · cases result

theorem ltmalloc_stack (store : SmallStore cc.chunksBefore cc.chunksFrom chunks)
    (noLoose : cc.freeList = []) (lifo : replay log = some cc.stack) {block : Nat}
    (result : ltmalloc smallestClass tc cc lastWord = some (.block block newTc newCc)) :
    replay (mallocLog tc cc log) = some newCc.stack ∧ newCc.freeList = [] := by
  unfold ltmalloc at result
  unfold mallocLog
  cases cached : tc.freeList with
  | cons first rest =>
      rw [cached] at result
      cases result
      rw [if_neg (fun empty => List.cons_ne_nil _ _ empty.1)]
      exact ⟨lifo, noLoose⟩
  | nil =>
      rw [cached] at result
      dsimp only at result
      unfold fetchFromCentralCache at result
      by_cases noTemp : tc.tempList = []
      · rw [if_pos ⟨rfl, noTemp⟩]
        rw [if_neg (not_not.mpr noTemp)] at result
        split at result
        · dsimp only at result
          rcases takeBatch_stack store with taken | ⟨batch, after, taken, isTop, sameLoose⟩
          · rw [taken] at result ⊢
            dsimp only at result ⊢
            obtain ⟨sameStack, stillNone⟩ := noFreeBatch_stack noLoose result
            rw [sameStack]
            exact ⟨lifo, stillNone⟩
          · rw [taken] at result ⊢
            dsimp only at result ⊢
            rw [handOut_cc result, sameLoose]
            refine ⟨?_, noLoose⟩
            rw [replay, lifo, isTop]
            exact if_pos rfl
        · cases result
      · rw [if_neg (fun empty => noTemp empty.2)]
        rw [if_pos noTemp] at result
        split at result
        · rw [handOut_cc result]
          exact ⟨lifo, noLoose⟩
        · cases result

theorem needChunk_log {waiting : ThreadCache}
    (store : SmallStore cc.chunksBefore cc.chunksFrom chunks)
    (result : ltmalloc smallestClass tc cc lastWord = some (.needChunk waiting)) :
    mallocLog tc cc log = log := by
  unfold mallocLog
  split
  · next empty =>
      rcases takeBatch_stack store with taken | ⟨batch, after, taken, _⟩
      · rw [taken]
      · unfold ltmalloc at result
        rw [empty.1] at result
        dsimp only at result
        unfold fetchFromCentralCache at result
        rw [if_neg (not_not.mpr empty.2)] at result
        split at result
        · rw [taken] at result
          dsimp only at result
          cases batch with
          | nil => cases result
          | cons first rest => cases result
        · cases result
  · rfl

theorem insertChunk_stack (store : SmallStore cc.chunksBefore cc.chunksFrom chunks)
    (noLoose : cc.freeList = []) {chunk block : Nat} {words : Nat → Nat}
    (result : insertChunk smallestClass chunk tc cc lastWord =
      some (.block block newTc newCc, words)) :
    newCc.stack = cc.stack ∧ newCc.freeList = [] := by
  obtain ⟨sameStack, sameLoose⟩ := linkChunk_stack store chunk
  unfold insertChunk at result
  dsimp only at result
  split at result
  · split at result
    · cases result
    · next handed =>
        cases result
        rw [handOut_cc handed]
        exact ⟨sameStack, sameLoose.trans noLoose⟩
  · cases result

theorem ltfree_stack (store : SmallStore cc.chunksBefore cc.chunksFrom chunks)
    (noLoose : cc.freeList = []) (lifo : replay log = some cc.stack) {block : Nat}
    (result : ltfree smallestClass block tc cc = some (newTc, newCc)) :
    replay (freeLog tc log) = some newCc.stack ∧ newCc.freeList = [] := by
  unfold ltfree at result
  unfold freeLog
  dsimp only at result
  by_cases exhausted : tc.counter - 1 < 0
  · rw [if_pos exhausted] at result
    obtain ⟨⟨movedTc, movedCc⟩, moved, result⟩ := Option.bind_eq_some_iff.mp result
    cases result
    obtain ⟨after, flushed, result⟩ := Option.bind_eq_some_iff.mp moved
    cases result
    unfold flushTempList at flushed
    by_cases noTemp : tc.tempList = []
    · rw [if_neg (not_not.mpr noTemp)] at flushed
      cases flushed
      rw [if_neg (fun adds => adds.2 noTemp)]
      exact ⟨lifo, noLoose⟩
    · rw [if_pos noTemp] at flushed
      obtain ⟨isPushed, sameLoose⟩ := addBatch_stack store flushed
      rw [if_pos ⟨exhausted, noTemp⟩, replay, lifo, isPushed, sameLoose]
      exact ⟨rfl, noLoose⟩
  · rw [if_neg exhausted] at result
    cases result
    rw [if_neg (fun adds => exhausted adds.1)]
    exact ⟨lifo, noLoose⟩

/-! ## Every run without a failure -/

structure BatchKept (state : BatchState threads) : Prop where
  inv : ∃ tails, ClassInv smallestClass state.cs state.lastWord state.fetching 0 tails
  noLoose : state.cs.central.freeList = []
  lifo : replay state.log = some state.cs.central.stack

theorem BatchKept.faithful {state : BatchState threads} (kept : BatchKept state) :
    FaithfulStack state := by
  obtain ⟨tails, inv⟩ := kept.inv
  have store := inv.central.store smallestClass_small
  refine ⟨store.full, store.empty, kept.lifo, ?_, ?_⟩
  · rcases takeBatch_stack store with taken | ⟨batch, after, taken, _⟩
    · rw [taken]
      exact fun fails => by cases fails
    · rw [taken]
      exact fun fails => by cases fails
  · intro thread exhausted
    cases isFetching : state.fetching thread with
    | true =>
        have cache := inv.caches thread
        rw [CacheInv, isFetching, if_pos rfl] at cache
        rw [cache] at exhausted
        exact absurd exhausted (by decide)
    | false =>
        have law := inv.law isFetching
        obtain ⟨after, flushed, _⟩ := flushTempList_spec smallestClass_served.geometry
          inv.central law.temp (inv.roomForTemp isFetching)
        rw [flushed]
        exact fun fails => by cases fails

theorem batchKept_initial (threads : Nat) (lastWord : Nat → Nat) :
    BatchKept (⟨.initial threads, fun _ => false, lastWord, []⟩ : BatchState threads) where
  inv := ⟨[], classInv_initial smallestClass lastWord⟩
  noLoose := rfl
  lifo := rfl

/-- Every call succeeds and keeps the invariant. -/
theorem BatchKept.step {state : BatchState threads} {event : BatchEvent threads}
    (kept : BatchKept state) (enabled : state.Enabled event) (allowed : NoFailure state event) :
    ∃ next, state.step event = some next ∧ BatchKept next := by
  have geometry := smallestClass_served.geometry
  obtain ⟨tails, inv⟩ := kept.inv
  have store := inv.central.store smallestClass_small
  cases event with
  | malloc thread =>
      have idle : state.fetching thread = false := enabled
      have unchanged : Function.update state.fetching thread false = state.fetching := by
        rw [← idle]
        exact Function.update_eq_self _ _
      rcases inv.malloc geometry idle (fun takes => absurd kept.noLoose takes.2.2.2) with
        ⟨block, tc, cc, newTails, result, _, newInv⟩ | ⟨result, newInv⟩
      · obtain ⟨lifo, noLoose⟩ := ltmalloc_stack store kept.noLoose kept.lifo result
        refine ⟨_, congrArg (Option.map _) result, ⟨newTails, ?_⟩, noLoose, lifo⟩
        change ClassInv smallestClass _ state.lastWord
          (Function.update state.fetching thread false) 0 newTails
        rw [unchanged]
        exact newInv
      · refine ⟨_, congrArg (Option.map _) result, ⟨tails, newInv⟩, kept.noLoose, ?_⟩
        change replay (mallocLog _ _ state.log) = _
        rw [needChunk_log store result]
        exact kept.lifo
  | createChunk thread chunk =>
      obtain ⟨isFetching, aligned, nonzero, fresh⟩ := enabled
      have cleared : ClassInv smallestClass state.cs
          (Function.update state.lastWord (chunk + chunkSize) 0) state.fetching 0 tails := by
        apply inv.congr geometry
        intro other member
        apply Function.update_of_ne
        intro same
        rw [Nat.add_right_cancel same] at member
        exact fresh member
      obtain ⟨block, tc, cc, hooked, newTails, result, _, _, newInv⟩ :=
        cleared.insertChunk geometry isFetching aligned nonzero fresh (Function.update_self ..)
      obtain ⟨sameStack, noLoose⟩ := insertChunk_stack store kept.noLoose result
      have isStep : state.step (.createChunk thread chunk) =
          some ({ state with
            cs := { state.cs with chunks := chunk :: state.cs.chunks }
            lastWord := hooked }.fetched thread state.log (.block block tc cc)) := by
        unfold BatchState.step
        dsimp only
        rw [result]
        rfl
      exact ⟨_, isStep, ⟨newTails, newInv⟩, noLoose,
        kept.lifo.trans (congrArg some sameStack.symm)⟩
  | chunkFails thread => exact absurd allowed id
  | free thread block =>
      obtain ⟨idle, isLive⟩ := enabled
      obtain ⟨tc, cc, result, newInv⟩ := inv.free geometry idle isLive
      obtain ⟨lifo, noLoose⟩ := ltfree_stack store kept.noLoose kept.lifo result
      have isStep : state.step (.free thread block) =
          some { state with
            cs := { state.cs with
              caches := Function.update state.cs.caches thread tc
              central := cc
              live := state.cs.live.erase block }
            log := freeLog (state.cs.caches thread) state.log } := by
        unfold BatchState.step
        dsimp only
        rw [result]
        rfl
      exact ⟨_, isStep, ⟨tails, newInv⟩, noLoose, lifo⟩

theorem batchKept_of_reachable {state : BatchState threads}
    (reached : (batchMachine threads).Reachable NoFailure state) : BatchKept state := by
  apply Machine.Reachable.invariant _ _ reached
  · rintro state ⟨lastWord, rfl⟩
    exact batchKept_initial threads lastWord
  · intro state event next kept enabled allowed result
    obtain ⟨other, isStep, otherKept⟩ := kept.step enabled allowed
    cases result.symm.trans isStep
    exact otherKept

/-- As long as there is memory for every chunk, the batches are a faithful stack and no call
faults. -/
theorem stack_faithful {state : BatchState threads}
    (reached : (batchMachine threads).Reachable NoFailure state) :
    FaithfulStack state ∧ (batchMachine threads).Safe NoFailure state := by
  have kept := batchKept_of_reachable reached
  refine ⟨kept.faithful, ?_⟩
  intro event enabled allowed fault
  obtain ⟨next, result, _⟩ := kept.step enabled allowed
  cases fault.symm.trans result

end MallocSurvey.Ltalloc
