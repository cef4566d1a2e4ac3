import MallocSurvey.Ltalloc.Effects
import MallocSurvey.Ltalloc.SystemRuns

/-! # Conservation of blocks

While the system has memory and no thread squeezes, each block is in one place. -/

namespace MallocSurvey.Ltalloc

open Library

variable {threads pageSize : Nat} {state next : State threads} {thread : Fin threads}

/-! ## Steps outside of a squeeze -/

/-- The steps of `ltmalloc` with memory available, of `ltfree` and of a thread's end. -/
def Ordinary : Event threads → Prop
  | .malloc .. | .allocateChunk .. | .insertChunk _ | .allocateLarge .. | .register _
  | .allocatePage .. | .registerWithPage _ | .free .. | .unmapLarge _ | .exit _
  | .releaseNext _ => True
  | _ => False

/-- Every allocation that falls back on loose blocks finds a `freeListSize` that serves. -/
def Serves (state : State threads) : Event threads → Prop
  | .malloc thread size => ServesRequest state thread size
  | _ => True

theorem Ordinary.harmless {event : Event threads} (ordinary : Ordinary event)
    (serves : Serves state event) : Harmless state event := by
  cases event with
  | malloc thread size => exact serves
  | chunkFails thread => exact ordinary.elim
  | pageFails thread => exact ordinary.elim
  | giveBack thread counted => exact ordinary.elim
  | _ => trivial

theorem Ordinary.attached {event : Event threads} (ordinary : Ordinary event)
    (attached : ∀ thread, (state.status thread).Attached)
    (result : step pageSize state event = some next) :
    ∀ thread, (next.status thread).Attached := by
  obtain ⟨status, changed, kind⟩ := (step_effect result).status
  intro other
  rw [changed]
  by_cases same : other = event.actor
  · rw [same, Function.update_self]
    rcases kind with unchanged | isAttached | ⟨thread, isDetach⟩
    · rw [unchanged]
      exact attached event.actor
    · exact isAttached
    · rw [isDetach] at ordinary
      exact ordinary.elim
  · rw [Function.update_of_ne same]
    exact attached other

/-! ## Every block in one place -/

/-- The places of the blocks of a class, and its caches and batches. A block is in
`live` as often as it has been handed out and not been freed. -/
structure ClassConserved (sizeClass : Nat) (cs : ClassState threads) (lastWord : Nat → Nat)
    (fetching : Fin threads → Bool) (tails : List Nat) : Prop where
  uncarved : TailsOf sizeClass cs.central cs.chunks lastWord tails
  places : cs.live + cs.cached + cs.central.stock sizeClass tails = cs.blocks sizeClass
  once : (cs.blocks sizeClass).Nodup
  live : cs.live.Nodup
  law : ∀ thread, fetching thread = false → CounterLaw sizeClass (cs.caches thread)
  fetches : ∀ thread, fetching thread = true → cs.caches thread = .fetching
  batches : ∀ batch ∈ cs.central.batches sizeClass, batch.length = batchSize sizeClass + 1

/-- Each block of a class is in one place; the classes have no block in common. -/
structure Conserved (state : State threads) : Prop where
  classes : ∀ sizeClass, ∃ tails, ClassConserved sizeClass (state.classes sizeClass)
    state.lastWord (state.fetching sizeClass) tails
  apart : ∀ left right, ∀ block ∈ (state.classes left).blocks left,
    block ∈ (state.classes right).blocks right → left = right

theorem ClassInv.conserved {sizeClass : Nat} {cs : ClassState threads} {lastWord : Nat → Nat}
    {fetching : Fin threads → Bool} {tails : List Nat}
    (inv : ClassInv sizeClass cs lastWord fetching 0 tails)
    (once : (cs.blocks sizeClass).Nodup) :
    ClassConserved sizeClass cs lastWord fetching tails where
  uncarved := inv.central.tails
  places := by
    rw [← inv.ledger, add_zero]
  once := once
  live := by
    rw [← inv.ledger, add_zero] at once
    exact Multiset.nodup_of_le ((Multiset.le_add_right _ _).trans (Multiset.le_add_right _ _)) once
  law thread notFetching := inv.law notFetching
  fetches thread isFetching := by
    have cacheInv := inv.caches thread
    rwa [CacheInv, if_pos isFetching] at cacheInv
  batches := inv.central.batches_full

theorem Inv.header_of_block (inv : Inv pageSize state) {sizeClass block : Nat}
    (member : block ∈ (state.classes sizeClass).blocks sizeClass) :
    state.headers (block / chunkSize * chunkSize) = sizeClass := by
  obtain ⟨chunk, isChunk, isBlock⟩ := List.mem_flatMap.mp (Multiset.mem_coe.mp member)
  have served := (inv.class_inTable isChunk).1
  obtain ⟨_, classInv⟩ := inv.classInv sizeClass served
  rw [(chunk_of_mem_chunkBlocks served.geometry (classInv.central.aligned chunk isChunk).1
    isBlock).1]
  exact inv.headers sizeClass chunk isChunk

theorem Inv.conserved (inv : Inv pageSize state)
    (attached : ∀ thread, (state.status thread).Attached) : Conserved state where
  classes sizeClass := by
    have noneDetached : state.detached sizeClass = 0 :=
      Finset.sum_eq_zero fun thread _ => attached thread sizeClass
    by_cases served : Served sizeClass
    · obtain ⟨tails, classInv⟩ := inv.classInv sizeClass served
      have once := classInv.blocks_nodup served.geometry
      rw [classInv.ledger] at once
      rw [noneDetached] at classInv
      exact ⟨tails, classInv.conserved once⟩
    · have notFetching : state.fetching sizeClass = fun _ => false :=
        funext (inv.notFetching served)
      rw [inv.unserved sizeClass served, notFetching]
      exact ⟨[], (classInv_initial sizeClass state.lastWord).conserved Multiset.nodup_zero⟩
  apart left right block inLeft inRight :=
    (inv.header_of_block inLeft).symm.trans (inv.header_of_block inRight)

theorem conserved_reachable (ok : PageSize pageSize)
    (reachable : (system threads pageSize).Reachable
      (fun state event => Ordinary event ∧ Serves state event) state) :
    Inv pageSize state ∧ ∀ thread, (state.status thread).Attached := by
  constructor
  · exact inv_reachable ok (reachable.mono fun _ _ allowed => allowed.1.harmless allowed.2)
  · induction reachable with
    | init isInit =>
        obtain ⟨headers, lastWord, nodes, isInit⟩ := isInit
        intro thread sizeClass
        rw [isInit]
        rfl
    | step _ _ allowed result attached => exact allowed.1.attached attached result

/-- In every run whose allocations from loose blocks are served, each block is in one
place, and no assertion fails. -/
theorem ltalloc_conserves (ok : PageSize pageSize)
    (reachable : (system threads pageSize).Reachable
      (fun state event => Ordinary event ∧ Serves state event) state) :
    Conserved state ∧ (system threads pageSize).Safe
      (fun state event => Ordinary event ∧ Serves state event) state := by
  obtain ⟨inv, attached⟩ := conserved_reachable ok reachable
  refine ⟨inv.conserved attached, ?_⟩
  intro event enabled allowed fault
  obtain ⟨next, result, _⟩ := inv.step ok enabled (allowed.1.harmless allowed.2)
  exact absurd (result.symm.trans fault) (Option.some_ne_none next)

end MallocSurvey.Ltalloc

/-! # More loose blocks than `freeListSize` counts

One thread allocates blocks of 16 bytes. Other threads free one of them each and end, so
that each adds one loose block to the central cache. -/

namespace MallocSurvey.Ltalloc

open Library

/-- The class of blocks of 16 bytes. -/
def pairClass : Nat := getSizeClass 16

theorem pairClass_served : Served pairClass := by decide

theorem pairClass_not_small : chunkIsSmall pairClass = false := by decide

section Lists

variable {sizeClass : Nat} {tc newTc : ThreadCache} {cc newCc : CentralCache}
  {lastWord : Nat → Nat} {block : Nat}

/-- A central cache without batches and loose blocks. -/
structure Bare (cc : CentralCache) : Prop where
  firstBatch : cc.firstBatch = []
  freeList : cc.freeList = []

theorem handOut_central {taken : List Nat} (result : handOut taken tc cc =
    some (.block block newTc newCc)) : newCc = cc := by
  cases taken with
  | nil => cases result
  | cons first rest =>
      cases result
      rfl

theorem carveLastChunk_bare (bare : Bare cc)
    (result : carveLastChunk sizeClass tc cc lastWord = some (.block block newTc newCc)) :
    Bare newCc := by
  have handed : ∀ {taken : List Nat} {tc : ThreadCache} {after : CentralCache},
      handOut taken tc after = some (.block block newTc newCc) →
      after.firstBatch = cc.firstBatch → after.freeList = cc.freeList → Bare newCc := by
    intro taken tc after result firstBatch freeList
    rw [handOut_central result]
    exact ⟨firstBatch.trans bare.firstBatch, freeList.trans bare.freeList⟩
  unfold carveLastChunk at result
  simp only at result
  split_ifs at result <;> exact handed result rfl rfl

theorem insertChunk_bare {chunk : Nat} {outcome : Fetched} {hooked : Nat → Nat}
    (notSmall : chunkIsSmall sizeClass = false) (bare : Bare cc)
    (result : insertChunk sizeClass chunk tc cc lastWord = some (outcome, hooked)) :
    ∃ block newTc newCc, outcome = .block block newTc newCc ∧ Bare newCc := by
  unfold insertChunk at result
  simp only at result
  split at result
  · split at result
    · cases result
    · next fetched handed =>
        have isOutcome : fetched = outcome := congrArg Prod.fst (Option.some.inj result)
        rw [← isOutcome]
        generalize run _ _ _ = taken at handed
        cases taken with
        | nil => cases handed
        | cons first rest =>
            refine ⟨_, _, _, (Option.some.inj handed).symm, ?_⟩
            rw [linkChunk, notSmall]
            exact ⟨bare.firstBatch, bare.freeList⟩
  · cases result

theorem ltmalloc_bare (notSmall : chunkIsSmall sizeClass = false) (bare : Bare cc)
    (result : ltmalloc sizeClass tc cc lastWord = some (.block block newTc newCc)) :
    Bare newCc := by
  have noBatch : takeBatch sizeClass cc = some none := by
    unfold takeBatch
    rw [notSmall, if_neg Bool.false_ne_true, bare.firstBatch]
  unfold ltmalloc at result
  split at result
  · cases result
    exact bare
  · unfold fetchFromCentralCache at result
    simp only [noBatch] at result
    split at result
    · split at result
      · rw [handOut_central result]
        exact bare
      · cases result
    · split at result
      · unfold noFreeBatch at result
        rw [if_neg (not_not.mpr bare.freeList)] at result
        split at result
        · exact carveLastChunk_bare bare result
        · cases result
      · cases result

end Lists

variable {threads : Nat} {state : State threads} {count loose : Nat}

/-! ## The first thread allocates -/

/-- Thread 0 has allocated `count` blocks; nothing else has happened. -/
structure Allocated (state : State threads) (count : Nat) : Prop where
  reachable : (system threads 4096).Reachable
    (fun state event => Ordinary event ∧ Serves state event) state
  idle : ∀ thread, state.status thread = .idle
  caches : ∀ thread : Fin threads, thread.val ≠ 0 → ∀ sizeClass,
    (state.classes sizeClass).caches thread = .initial
  bare : Bare (state.classes pairClass).central
  live : (state.classes pairClass).live.card = count
  padChunks : state.padChunks = []
  mapped : ∀ region ∈ state.mapped, region.1 + region.2 ≤ (count + 1) * chunkSize

theorem pageSize_ok : PageSize 4096 := ⟨by decide, by decide⟩

theorem idle_update {thread : Fin threads}
    (idle : ∀ other, other ≠ thread → state.status other = .idle) :
    ∀ other, Function.update state.status thread .idle other = .idle := by
  intro other
  by_cases same : other = thread
  · rw [same, Function.update_self]
  · rw [Function.update_of_ne same]
    exact idle other same

/-- Only thread 0 and the class of 16 bytes change. -/
structure OnlyFirst (state next : State threads) : Prop where
  classes : ∀ sizeClass, sizeClass ≠ pairClass →
    next.classes sizeClass = state.classes sizeClass
  caches : ∀ other : Fin threads, other.val ≠ 0 →
    (next.classes pairClass).caches other = (state.classes pairClass).caches other
  padChunks : next.padChunks = state.padChunks

theorem Allocated.next {next : State threads} (allocated : Allocated state count)
    (reachable : (system threads 4096).Reachable
      (fun state event => Ordinary event ∧ Serves state event) next)
    (only : OnlyFirst state next) (idle : ∀ thread, next.status thread = .idle)
    (bare : Bare (next.classes pairClass).central)
    (live : (next.classes pairClass).live.card = (state.classes pairClass).live.card + 1)
    (mapped : ∀ region ∈ next.mapped, region.1 + region.2 ≤ (count + 1 + 1) * chunkSize) :
    Allocated next (count + 1) where
  reachable := reachable
  idle := idle
  caches other notFirst sizeClass := by
    by_cases same : sizeClass = pairClass
    · rw [same, only.caches other notFirst]
      exact allocated.caches other notFirst pairClass
    · rw [only.classes sizeClass same]
      exact allocated.caches other notFirst sizeClass
  bare := bare
  live := by rw [live, allocated.live]
  padChunks := only.padChunks.trans allocated.padChunks
  mapped := mapped

theorem allocateChunk_fresh {thread : Fin threads} {sizeClass region : Nat}
    (waits : state.status thread = .allocatingChunk sizeClass) (noPad : state.padChunks = []) :
    state.allocateChunk thread region = some ({ state with
      mapped := (region, chunkSize) ::ₘ state.mapped
      lastWord := Function.update state.lastWord (region + chunkSize) 0 }.setStatus thread
        (.insertingChunk sizeClass region)) := by
  rw [State.allocateChunk, waits, noPad]

theorem Allocated.malloc (allocated : Allocated state count) (inRange : count < 2 ^ 32)
    {thread : Fin threads} (isFirst : thread.val = 0) :
    ∃ next : State threads, Allocated next (count + 1) := by
  have isIdle := allocated.idle thread
  obtain ⟨inv, _⟩ := conserved_reachable pageSize_ok allocated.reachable
  have serves : ServesRequest state thread 16 :=
    fun takes => absurd allocated.bare.freeList takes.2.2.2
  have enabled : (system threads 4096).Enabled state (.malloc thread 16) :=
    ⟨isIdle, by decide⟩
  obtain ⟨tails, classInv⟩ := inv.classInv pairClass pairClass_served
  have isMalloc : state.malloc thread 16 = state.mallocBlock thread pairClass := by
    unfold State.malloc
    exact if_pos (.inr ⟨by decide, by decide⟩)
  have wider : ∀ region ∈ state.mapped, region.1 + region.2 ≤ (count + 1 + 1) * chunkSize :=
    fun region member => (allocated.mapped region member).trans
      (Nat.mul_le_mul_right _ (Nat.le_succ _))
  have others : ∀ {other : Fin threads}, other.val ≠ 0 → other ≠ thread :=
    fun notFirst equal => notFirst (equal ▸ isFirst)
  rcases classInv.malloc pairClass_served.geometry (fetching_of_idle isIdle) serves with
    ⟨block, tc, cc, newTails, result, _, newInv⟩ | ⟨result, newInv⟩
  · have isStep : (system threads 4096).step state (.malloc thread 16) =
        some (state.fetched thread pairClass (.block block tc cc)) := by
      change state.malloc thread 16 = _
      rw [isMalloc, State.mallocBlock, result]
      rfl
    refine ⟨_, allocated.next (allocated.reachable.step enabled ⟨trivial, serves⟩ isStep)
      ⟨?_, ?_, rfl⟩ (idle_update fun other _ => allocated.idle other) ?_ ?_ wider⟩
    · exact fun sizeClass different => Function.update_of_ne different _ _
    · intro other notFirst
      simp [State.fetched, State.finish, State.setStatus, State.setClass, others notFirst]
    · simp only [State.fetched, State.finish, State.setStatus, State.setClass,
        Function.update_self]
      exact ltmalloc_bare pairClass_not_small allocated.bare result
    · simp only [State.fetched, State.finish, State.setStatus, State.setClass,
        Function.update_self]
      exact Multiset.card_cons _ _
  · have isStep : (system threads 4096).step state (.malloc thread 16) =
        some (state.fetched thread pairClass (.needChunk .fetching)) := by
      change state.malloc thread 16 = _
      rw [isMalloc, State.mallocBlock, result]
      rfl
    have isWaiting := allocated.reachable.step enabled ⟨trivial, serves⟩ isStep
    -- the chunk that the system maps
    let region := (count + 1) * chunkSize
    let waiting := state.fetched thread pairClass (.needChunk .fetching)
    let taken := { waiting with
      mapped := (region, chunkSize) ::ₘ waiting.mapped
      lastWord := Function.update waiting.lastWord (region + chunkSize) 0 }.setStatus thread
        (.insertingChunk pairClass region)
    have fresh : IsFresh chunkSize region chunkSize state.mapped := by
      refine ⟨Nat.mul_mod_left _ _, Nat.mul_ne_zero (by omega) (by decide), ?_,
        fun other member => .inr (allocated.mapped other member)⟩
      simp only [region, chunkSize]
      omega
    have waits : waiting.status thread = .allocatingChunk pairClass := Function.update_self ..
    have chunkEnabled : (system threads 4096).Enabled waiting (.allocateChunk thread region) :=
      ⟨⟨pairClass, waits⟩, fun _ => fresh⟩
    have noPad : waiting.padChunks = [] := allocated.padChunks
    have chunkStep : (system threads 4096).step waiting (.allocateChunk thread region) =
        some taken := allocateChunk_fresh waits noPad
    have isTaken := isWaiting.step chunkEnabled ⟨trivial, trivial⟩ chunkStep
    have inserts : taken.status thread = .insertingChunk pairClass region :=
      Function.update_self ..
    obtain ⟨takenInv, _⟩ := conserved_reachable pageSize_ok isTaken
    let cs : ClassState threads := { state.classes pairClass with
      caches := Function.update (state.classes pairClass).caches thread .fetching }
    have isClass : taken.classes pairClass = cs := by
      simp [taken, waiting, cs, State.fetched, State.setStatus, State.setClass]
    have insertEnabled : (system threads 4096).Enabled taken (.insertChunk thread) :=
      ⟨pairClass, region, inserts⟩
    obtain ⟨next, insertStep, _⟩ := takenInv.insertChunk inserts
    have isInserted := isTaken.step insertEnabled ⟨trivial, trivial⟩ insertStep
    rw [State.insertChunk, inserts] at insertStep
    simp only [isClass] at insertStep
    obtain ⟨⟨outcome, hooked⟩, chunkResult, isNext⟩ := Option.bind_eq_some_iff.mp insertStep
    obtain ⟨block, tc, cc, isBlock, bare⟩ :=
      insertChunk_bare pairClass_not_small allocated.bare chunkResult
    rw [isBlock] at isNext
    have isNext := (Option.some.inj isNext).symm
    refine ⟨next, allocated.next isInserted ⟨?_, ?_, ?_⟩ ?_ ?_ ?_ ?_⟩
    · intro sizeClass different
      simp [isNext, taken, waiting, State.fetched, State.finish, State.setStatus, State.setClass,
        different]
    · intro other notFirst
      simp [isNext, cs, taken, waiting, State.fetched, State.finish, State.setStatus,
        State.setClass, others notFirst]
    · rw [isNext]
      rfl
    · intro other
      by_cases same : other = thread
      · simp [isNext, same, taken, waiting, State.fetched, State.finish, State.setStatus,
          State.setClass]
      · simp [isNext, same, taken, waiting, State.fetched, State.finish, State.setStatus,
          State.setClass, allocated.idle other]
    · simpa [isNext, State.fetched, State.finish, State.setStatus, State.setClass] using bare
    · simp [isNext, cs, State.fetched, State.finish, State.setStatus, State.setClass]
    · intro item member
      rw [isNext] at member
      rcases Multiset.mem_cons.mp member with isNew | isOld
      · rw [isNew, ← Nat.succ_mul]
      · exact wider item isOld

theorem allocated_reached (threads : Nat) (several : 0 < threads) (count : Nat)
    (inRange : count ≤ 2 ^ 32) : ∃ state : State threads, Allocated state count := by
  induction count with
  | zero =>
      refine ⟨.initial threads (fun _ => 0) (fun _ => 0) (fun _ => none), .init ⟨_, _, _, rfl⟩,
        fun _ => rfl, fun _ _ _ => rfl, ⟨rfl, rfl⟩, rfl, rfl, fun _ member => nomatch member⟩
  | succ count induction =>
      obtain ⟨state, allocated⟩ := induction (by omega)
      exact @Allocated.malloc threads state count allocated (by omega) ⟨0, several⟩ rfl

theorem ltalloc_conserves_three : ∃ state : State 2,
    (state.classes pairClass).live.card = 3 ∧ Conserved state ∧
      (system 2 4096).Safe (fun state event => Ordinary event ∧ Serves state event) state := by
  obtain ⟨state, allocated⟩ := allocated_reached 2 (by decide) 3 (by decide)
  exact ⟨state, allocated.live, ltalloc_conserves pageSize_ok allocated.reachable⟩

theorem setClass_self (state : State threads) (sizeClass : Nat) (cs : ClassState threads) :
    (state.setClass sizeClass cs).classes sizeClass = cs :=
  Function.update_self ..

theorem setClass_other (state : State threads) {sizeClass other : Nat} (cs : ClassState threads)
    (different : other ≠ sizeClass) :
    (state.setClass sizeClass cs).classes other = state.classes other :=
  Function.update_of_ne different _ _

/-! ## The other threads free a block each and end -/

/-- The threads up to number `loose` have freed a block each and ended. -/
structure Loosened (state : State threads) (count loose : Nat) : Prop where
  reachable : (system threads 4096).Reachable
    (fun state event => Ordinary event ∧ Serves state event) state
  idle : ∀ thread : Fin threads, loose < thread.val → state.status thread = .idle
  caches : ∀ thread : Fin threads, loose < thread.val → ∀ sizeClass,
    (state.classes sizeClass).caches thread = .initial
  firstBatch : (state.classes pairClass).central.firstBatch = []
  freeList : (state.classes pairClass).central.freeList.length = loose
  live : (state.classes pairClass).live.card + loose = count

/-- The first block that a thread frees opens a batch. -/
theorem ltfree_first (block : Nat) (cc : CentralCache) :
    ltfree pairClass block .initial cc = some (⟨[block], [], 255⟩, cc) := rfl

theorem release_one (block : Nat) (cc : CentralCache) :
    releaseThreadCache pairClass ⟨[block], [], 255⟩ cc = some { cc with
      freeList := block :: cc.freeList
      freeListSize := (cc.freeListSize + 1) % 2 ^ 32 } := rfl

/-- A thread with blocks of one class only. -/
theorem nextCached_pair {thread : Fin threads}
    (own : ((state.classes pairClass).caches thread).freeList ≠ [])
    (others : ∀ sizeClass, sizeClass ≠ pairClass →
      (state.classes sizeClass).caches thread = .initial) :
    state.nextCached thread 0 = some pairClass := by
  have isPair : (fun sizeClass =>
      let tc := (state.classes sizeClass).caches thread
      !(tc.freeList.isEmpty && tc.tempList.isEmpty)) = fun sizeClass => sizeClass == pairClass := by
    funext sizeClass
    by_cases same : sizeClass = pairClass
    · rw [same, beq_self_eq_true]
      simp [own]
    · rw [beq_false_of_ne same, others sizeClass same]
      rfl
  rw [State.nextCached, isPair]
  decide

theorem Loosened.next (loosened : Loosened state count loose) (more : loose < count)
    (enough : loose + 1 < threads) :
    ∃ next : State threads, Loosened next count (loose + 1) := by
  let thread : Fin threads := ⟨loose + 1, enough⟩
  have isIdle := loosened.idle thread (Nat.lt_succ_self loose)
  have isInitial := loosened.caches thread (Nat.lt_succ_self loose)
  obtain ⟨inv, _⟩ := conserved_reachable pageSize_ok loosened.reachable
  have someLive : 0 < (state.classes pairClass).live.card := by
    have live := loosened.live
    omega
  obtain ⟨block, isLive⟩ := Multiset.card_pos_iff_exists_mem.mp someLive
  obtain ⟨isChunk, inside, _⟩ := inv.chunk_of_live isLive
  -- the thread frees a block of thread 0
  let freedClass : ClassState threads := { state.classes pairClass with
    caches := Function.update (state.classes pairClass).caches thread ⟨[block], [], 255⟩
    live := (state.classes pairClass).live.erase block }
  let freed := state.setClass pairClass freedClass
  have freeEnabled : (system threads 4096).Enabled state (.free thread block) :=
    ⟨isIdle, .inr (.inl ⟨pairClass, isLive⟩)⟩
  have freeStep : (system threads 4096).step state (.free thread block) = some freed := by
    change state.free thread block = some freed
    rw [State.free, if_pos inside, inv.headers pairClass _ isChunk]
    simp only [isInitial, ltfree_first]
    rfl
  have isFreed := loosened.reachable.step freeEnabled ⟨trivial, trivial⟩ freeStep
  have freedIsClass : freed.classes pairClass = freedClass := setClass_self ..
  -- the thread ends
  let exiting := freed.setStatus thread (.exiting 0)
  have exitEnabled : (system threads 4096).Enabled freed (.exit thread) := isIdle
  have isExiting := isFreed.step exitEnabled ⟨trivial, trivial⟩ (rfl : _ = some exiting)
  have exits : exiting.status thread = .exiting 0 := Function.update_self ..
  have exitingIsClass : exiting.classes pairClass = freedClass := freedIsClass
  have ownCache : freedClass.caches thread = ⟨[block], [], 255⟩ := Function.update_self ..
  have isNext : exiting.nextCached thread 0 = some pairClass := by
    apply nextCached_pair
    · rw [exitingIsClass, ownCache]
      exact List.cons_ne_nil _ _
    · intro sizeClass different
      change ((state.setClass pairClass freedClass).classes sizeClass).caches thread = _
      rw [setClass_other state freedClass different]
      exact loosened.caches thread (Nat.lt_succ_self loose) sizeClass
  let released : ClassState threads := { freedClass with
    caches := Function.update freedClass.caches thread .initial
    central := { freedClass.central with
      freeList := block :: freedClass.central.freeList
      freeListSize := (freedClass.central.freeListSize + 1) % 2 ^ 32 } }
  let next := (exiting.setClass pairClass released).setStatus thread (.exiting (pairClass + 1))
  have releaseEnabled : (system threads 4096).Enabled exiting (.releaseNext thread) := ⟨0, exits⟩
  have releaseStep : (system threads 4096).step exiting (.releaseNext thread) = some next := by
    change exiting.releaseNext thread = some next
    rw [State.releaseNext, exits]
    simp only [isNext, exitingIsClass, ownCache, release_one]
    rfl
  have nextIsClass : next.classes pairClass = released :=
    setClass_self exiting pairClass released
  refine ⟨next, isExiting.step releaseEnabled ⟨trivial, trivial⟩ releaseStep, ?_, ?_, ?_, ?_, ?_⟩
  · intro other later
    have different : other ≠ thread := fun equal => by
      rw [equal] at later
      exact Nat.lt_irrefl _ later
    have isOther : next.status other = state.status other := by
      simp [next, exiting, freed, State.setStatus, State.setClass, different]
    rw [isOther]
    exact loosened.idle other (by omega)
  · intro other later sizeClass
    have different : other ≠ thread := fun equal => by
      rw [equal] at later
      exact Nat.lt_irrefl _ later
    have isOther : (next.classes sizeClass).caches other =
        (state.classes sizeClass).caches other := by
      by_cases same : sizeClass = pairClass
      · rw [same, nextIsClass]
        simp [released, freedClass, different]
      · simp [next, exiting, freed, State.setStatus, State.setClass, same]
    rw [isOther]
    exact loosened.caches other (by omega) sizeClass
  · rw [nextIsClass]
    exact loosened.firstBatch
  · rw [nextIsClass]
    exact congrArg (· + 1) loosened.freeList
  · rw [nextIsClass]
    have erased := Multiset.card_erase_add_one isLive
    have live := loosened.live
    simp only [released, freedClass]
    omega

theorem Allocated.loosened (allocated : Allocated state count) : Loosened state count 0 where
  reachable := allocated.reachable
  idle thread _ := allocated.idle thread
  caches thread later := allocated.caches thread (by omega)
  firstBatch := allocated.bare.firstBatch
  freeList := by rw [allocated.bare.freeList]; rfl
  live := allocated.live

theorem loosened_reached {start : State threads} (allocated : Allocated start count)
    (few : loose ≤ count) (enough : loose < threads) :
    ∃ state : State threads, Loosened state count loose := by
  induction loose with
  | zero => exact ⟨start, allocated.loosened⟩
  | succ loose induction =>
      obtain ⟨state, loosened⟩ := induction (by omega) (by omega)
      exact loosened.next (by omega) enough

/-! ## The assertion fails -/

/-- With `2 ^ 32` loose blocks `freeListSize` is zero, which `ltmalloc` asserts not to be. -/
theorem Loosened.fault (loosened : Loosened state (2 ^ 32) (2 ^ 32)) {thread : Fin threads}
    (isLast : thread.val = 2 ^ 32 + 1) :
    (system threads 4096).Enabled state (.malloc thread 16) ∧
      (system threads 4096).step state (.malloc thread 16) = none := by
  obtain ⟨inv, _⟩ := conserved_reachable pageSize_ok loosened.reachable
  obtain ⟨tails, classInv⟩ := inv.classInv pairClass pairClass_served
  have size : (state.classes pairClass).central.freeListSize = 0 := by
    rw [classInv.central.freeListSize, loosened.freeList]
    rfl
  have loose : (state.classes pairClass).central.freeList ≠ [] := by
    intro isEmpty
    have length := loosened.freeList
    rw [isEmpty] at length
    exact absurd length (by decide)
  have noBatch : takeBatch pairClass (state.classes pairClass).central = some none := by
    unfold takeBatch
    rw [pairClass_not_small, if_neg Bool.false_ne_true, loosened.firstBatch]
  have isMalloc : state.malloc thread 16 = state.mallocBlock thread pairClass := by
    unfold State.malloc
    exact if_pos (.inr ⟨by decide, by decide⟩)
  refine ⟨⟨loosened.idle thread (by omega), by decide⟩, ?_⟩
  change state.malloc thread 16 = none
  rw [isMalloc, State.mallocBlock, loosened.caches thread (by omega) pairClass]
  have fetches : fetchFromCentralCache pairClass .initial (state.classes pairClass).central
      state.lastWord = none := by
    unfold fetchFromCentralCache
    have noTemp : ¬ ThreadCache.initial.tempList ≠ [] := not_not.mpr rfl
    rw [if_neg noTemp, if_pos (.inl rfl)]
    simp only [noBatch]
    rw [noFreeBatch, if_pos loose, takeFreeList, if_neg (not_not.mpr size)]
  exact congrArg (Option.map _) fetches

/-- In runs with memory for every allocation the assertions can fail. -/
theorem looseBlocks_overflow :
    ¬ ∀ (threads pageSize : Nat) (state : State threads), PageSize pageSize →
      (system threads pageSize).Reachable (fun _ event => Ordinary event) state →
      Conserved state ∧ (system threads pageSize).Safe (fun _ event => Ordinary event) state := by
  intro always
  obtain ⟨start, allocated⟩ := allocated_reached (2 ^ 32 + 2) (by decide) (2 ^ 32) le_rfl
  obtain ⟨state, loosened⟩ := loosened_reached allocated (le_refl (2 ^ 32)) (by decide)
  obtain ⟨enabled, fault⟩ := @Loosened.fault (2 ^ 32 + 2) state loosened ⟨2 ^ 32 + 1, by decide⟩ rfl
  obtain ⟨_, safe⟩ := always _ _ state pageSize_ok (loosened.reachable.mono fun _ _ allowed =>
    allowed.1)
  exact safe _ enabled trivial fault

end MallocSurvey.Ltalloc
