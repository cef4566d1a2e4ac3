import MallocSurvey.Ltalloc.Calls

/-! # Contents of blocks in use

The memory beside the state of the allocator. Steps of the allocator write to what no
caller uses, and callers write to their blocks. -/

namespace MallocSurvey.Ltalloc

open Library

variable {threads pageSize : Nat}

/-! ## Blocks in use -/

/-- The block is in use, with so many usable bytes. -/
def State.InUse (state : State threads) (block size : Nat) : Prop :=
  (∃ sizeClass, block ∈ (state.classes sizeClass).live ∧ size = classToSize sizeClass) ∨
    (block, size) ∈ state.large

section InUse

variable {state next : State threads} {thread : Fin threads} {block size : Nat}

theorem Inv.msize_inUse (inv : Inv pageSize state) (inUse : state.InUse block size) :
    state.msize block = some size := by
  rcases inUse with ⟨sizeClass, isLive, isSize⟩ | isLarge
  · rw [isSize]
    exact inv.msize_live isLive
  · exact inv.msize_large isLarge

theorem Inv.inUse_nonzero (inv : Inv pageSize state) (inUse : state.InUse block size) :
    block ≠ 0 := by
  rcases inUse with ⟨sizeClass, isLive, _⟩ | isLarge
  · obtain ⟨_, inside, _⟩ := inv.chunk_of_live isLive
    intro isNull
    exact inside (by rw [isNull, Nat.zero_mod])
  · exact (inv.large _ isLarge).nonzero

theorem Inv.inUse_lt (inv : Inv pageSize state) (inUse : state.InUse block size) :
    size < 2 ^ 64 := by
  rcases inUse with ⟨sizeClass, isLive, isSize⟩ | isLarge
  · have served := inv.served_of_live isLive
    have geometry := served.geometry
    have oneBlock := Nat.le_mul_of_pos_left (classToSize sizeClass) geometry.blocks_pos
    have fits := geometry.blocks_lt
    unfold chunkSize at fits
    omega
  · have inRange := (inv.large _ isLarge).inRange
    exact (Nat.le_add_left _ _).trans_lt inRange

theorem step_inUse {event : Event threads} (result : step pageSize state event = some next)
    (inUse : state.InUse block size) (kept : event ≠ .free event.actor block) :
    next.InUse block size := by
  have effect := step_effect result
  rcases inUse with ⟨sizeClass, isLive, isSize⟩ | isLarge
  · exact .inl ⟨sizeClass, effect.live sizeClass block isLive kept, isSize⟩
  · exact .inr (effect.large _ isLarge kept)

/-- What a call has been given, with its usable bytes. -/
theorem Inv.served_inUse (inv : Inv pageSize state) {request : Nat}
    (inRange : request < 2 ^ 64) (nowIdle : state.status thread = .idle)
    (serving : Serving request state thread) :
    state.result thread = 0 ∨
      ∃ size, state.InUse (state.result thread) size ∧ request ≤ size := by
  rw [Serving, nowIdle] at serving
  rcases serving with isNull | ⟨isSmall, isLive⟩ | ⟨_, isLarge⟩
  · exact .inl isNull
  · refine .inr ⟨_, .inl ⟨_, isLive, rfl⟩, ?_⟩
    have bound : maxBlockSize = 57344 := rfl
    unfold requestClass
    split
    · omega
    · exact le_classToSize (by omega) (by omega)
  · exact .inr ⟨_, .inr isLarge, le_largeSize inRange (inv.large _ isLarge).positive⟩

/-! ## A new block is none of the others -/

theorem Inv.class_unique (inv : Inv pageSize state) {left right : Nat}
    (inLeft : block ∈ (state.classes left).live) (inRight : block ∈ (state.classes right).live) :
    left = right :=
  (inv.headers left _ (inv.chunk_of_live inLeft).1).symm.trans
    (inv.headers right _ (inv.chunk_of_live inRight).1)

theorem Inv.new_live_ne (inv : Inv pageSize state) (newInv : Inv pageSize next)
    {event : Event threads} (result : Ltalloc.step pageSize state event = some next)
    (notFree : ∀ block, event ≠ .free event.actor block) {sizeClass new : Nat}
    (fresh : new ∉ (state.classes sizeClass).live) (isLive : new ∈ (next.classes sizeClass).live)
    (inUse : state.InUse block size) : new ≠ block := by
  intro equal
  rcases inUse with ⟨other, wasLive, _⟩ | isLarge
  · have stays := (step_effect result).live other block wasLive (notFree block)
    have same := newInv.class_unique isLive (equal ▸ stays)
    exact fresh (same ▸ equal ▸ wasLive)
  · have aligned := (inv.large _ isLarge).aligned
    exact (newInv.chunk_of_live isLive).2.1 (equal ▸ aligned)

theorem Inv.held_ne_inUse (inv : Inv pageSize state) {new bytes : Nat}
    (isHeld : (new, bytes) ∈ (state.status thread).held pageSize) (aligned : new % chunkSize = 0)
    (inUse : state.InUse block size) : new ≠ block := by
  rcases inUse with ⟨other, isLive, _⟩ | isLarge
  · intro equal
    exact (inv.chunk_of_live isLive).2.1 (equal ▸ aligned)
  · exact inv.held_ne_large isHeld isLarge

/-- What the thread has got is not this block. -/
def State.Apart (state : State threads) (thread : Fin threads) (block : Nat) : Prop :=
  state.status thread = .idle → state.result thread ≠ block

theorem State.Apart.of_busy {status : Status}
    (changed : next.status = Function.update state.status thread status)
    (busy : status ≠ .idle) : next.Apart thread block := by
  intro isIdle
  rw [changed, Function.update_self] at isIdle
  exact absurd isIdle busy

variable {request : Nat}

theorem Inv.malloc_apart (inv : Inv pageSize state)
    (enabled : Enabled pageSize state (.malloc thread request))
    (harmless : Harmless state (.malloc thread request))
    (result : state.malloc thread request = some next) (inUse : state.InUse block size) :
    next.Apart thread block := by
  obtain ⟨isIdle, inRange⟩ := enabled
  by_cases large : maxBlockSize < request
  · obtain ⟨outcome, _⟩ := inv.mallocLarge isIdle large inRange
    rw [← Option.some.inj (outcome.symm.trans result)]
    exact @State.Apart.of_busy _ state _ _ _ _ rfl nofun
  · obtain ⟨isBlock, served⟩ := @Inv.malloc_eq _ _ _ thread inv _ (Nat.le_of_not_lt large)
    obtain ⟨other, outcome, newInv, place⟩ := inv.mallocBlock isIdle served harmless
    have isNext : other = next := Option.some.inj ((isBlock.trans outcome).symm.trans result)
    subst isNext
    rcases place with waiting | ⟨_, fresh, isLive⟩
    · intro nowIdle
      rw [waiting] at nowIdle
      cases nowIdle
    · intro _
      exact @Inv.new_live_ne _ _ _ _ _ _ inv newInv (.malloc thread request) result
        (fun _ => nofun) _ _ fresh isLive inUse

theorem Inv.finish_apart (inv : Inv pageSize state) (inUse : state.InUse block size) :
    (state.finish thread 0).Apart thread block := by
  intro _
  rw [finish_result]
  exact (inv.inUse_nonzero inUse).symm

theorem Inv.step_apart (inv : Inv pageSize state) (ok : PageSize pageSize)
    {event : Event threads} (enabled : Enabled pageSize state event)
    (harmless : Harmless state event) (continues : event.Continues)
    (result : Ltalloc.step pageSize state event = some next) (inUse : state.InUse block size) :
    next.Apart event.actor block := by
  cases event with
  | allocateChunk thread region =>
      obtain ⟨⟨sizeClass, isStatus⟩, fresh⟩ := enabled
      obtain ⟨other, chunk, outcome, _, _, status⟩ := inv.allocateChunk ok isStatus fresh
      rw [← Option.some.inj (outcome.symm.trans result)]
      exact .of_busy status nofun
  | chunkFails thread =>
      rw [← Option.some.inj result]
      exact inv.finish_apart inUse
  | insertChunk thread =>
      obtain ⟨sizeClass, chunk, isStatus⟩ := enabled
      obtain ⟨other, outcome, newInv, _, fresh, live⟩ := inv.insertChunk isStatus
      have isNext : other = next := Option.some.inj (outcome.symm.trans result)
      subst isNext
      intro _
      refine @Inv.new_live_ne _ _ _ _ _ _ inv newInv (.insertChunk thread) result
        (fun _ => nofun) _ _ fresh ?_ inUse
      rw [live]
      exact Multiset.mem_cons_self ..
  | allocateLarge thread region =>
      obtain ⟨size, isStatus, positive, fresh⟩ := enabled
      obtain ⟨other, outcome, _, status, _⟩ := inv.allocateLarge ok isStatus positive fresh
      rw [← Option.some.inj (outcome.symm.trans result)]
      exact .of_busy status nofun
  | largeFails thread =>
      rw [← Option.some.inj result]
      exact inv.finish_apart inUse
  | register thread =>
      obtain ⟨new, bytes, isStatus⟩ := enabled
      obtain ⟨other, outcome, _, place⟩ := inv.register ok isStatus
      have statusInv := inv.status thread
      rw [isStatus] at statusInv
      rw [← Option.some.inj (outcome.symm.trans result)]
      rcases place with ⟨status, _⟩ | ⟨_, isResult, _⟩
      · exact .of_busy status nofun
      · intro _
        change other.result thread ≠ block
        rw [isResult]
        refine @Inv.held_ne_inUse _ _ _ thread _ _ inv new bytes ?_ statusInv.aligned inUse
        rw [isStatus]
        exact Multiset.mem_singleton_self _
  | allocatePage thread region =>
      obtain ⟨⟨new, bytes, isStatus⟩, fresh⟩ := enabled
      obtain ⟨other, outcome, _, status, _⟩ := inv.allocatePage ok isStatus fresh
      rw [← Option.some.inj (outcome.symm.trans result)]
      exact .of_busy status nofun
  | pageFails thread => exact harmless.elim
  | registerWithPage thread =>
      obtain ⟨new, bytes, page, isStatus⟩ := enabled
      obtain ⟨other, outcome, _, status, isResult, _⟩ := inv.registerWithPage ok isStatus
      have statusInv := inv.status thread
      rw [isStatus] at statusInv
      rw [← Option.some.inj (outcome.symm.trans result)]
      intro _
      change other.result thread ≠ block
      rw [isResult]
      refine @Inv.held_ne_inUse _ _ _ thread _ _ inv new bytes ?_ statusInv.1.aligned inUse
      rw [isStatus]
      exact Multiset.mem_add.mpr (.inl (Multiset.mem_singleton_self _))
  | _ => exact continues.elim

end InUse

/-! ## The memory -/

structure Memory (threads : Nat) where
  state : State threads
  bytes : Nat → BitVec 8

inductive Access (threads : Nat)
  /-- A step of the allocator, after which the memory is `bytes`. -/
  | step (event : Event threads) (bytes : Nat → BitVec 8)
  | store (thread : Fin threads) (address : Nat) (value : BitVec 8)

def Access.actor : Access threads → Fin threads
  | .step event _ => event.actor
  | .store thread _ _ => thread

/-- The two memories agree on the block. -/
def SameBytes (before after : Nat → BitVec 8) (block size : Nat) : Prop :=
  ∀ offset < size, after (block + offset) = before (block + offset)

/-- Callers write to blocks in use, the allocator to anything else. -/
def memorySystem (threads pageSize : Nat) : Machine (Memory threads) (Access threads) where
  Init := fun memory => (system threads pageSize).Init memory.state
  Enabled memory
    | .step event bytes => Enabled pageSize memory.state event ∧
        ∀ block size, memory.state.InUse block size → event ≠ .free event.actor block →
          SameBytes memory.bytes bytes block size
    | .store _ address _ => ∃ block size, memory.state.InUse block size ∧
        block ≤ address ∧ address < block + size
  step memory
    | .step event bytes => (step pageSize memory.state event).map fun next => ⟨next, bytes⟩
    | .store _ address value =>
        some { memory with bytes := Function.update memory.bytes address value }

/-- The access leaves the blocks to their owner. -/
def Undisturbed (blocks : List Nat) (memory : Memory threads) : Access threads → Prop
  | .step event _ => Harmless memory.state event ∧
      ∀ block ∈ blocks, event ≠ .free event.actor block
  | .store _ address _ => ∀ block ∈ blocks, ∀ size, memory.state.InUse block size →
      ¬ (block ≤ address ∧ address < block + size)

/-- The block is in use with these contents. -/
structure Memory.Holds (memory : Memory threads) (block size : Nat) (contents : Nat → BitVec 8) :
    Prop where
  inUse : memory.state.InUse block size
  bytes : ∀ offset < size, memory.bytes (block + offset) = contents offset

variable {memory next : Memory threads} {thread : Fin threads} {blocks : List Nat}
  {access : Access threads} {block size : Nat} {contents : Nat → BitVec 8}

theorem Memory.Holds.step {event : Event threads} {bytes : Nat → BitVec 8}
    (holds : memory.Holds block size contents)
    (enabled : (memorySystem threads pageSize).Enabled memory (.step event bytes))
    (kept : event ≠ .free event.actor block)
    (result : (memorySystem threads pageSize).step memory (.step event bytes) = some next) :
    next.Holds block size contents := by
  obtain ⟨state, stepped, isNext⟩ := Option.map_eq_some_iff.mp result
  rw [← isNext]
  refine ⟨step_inUse stepped holds.inUse kept, ?_⟩
  intro offset inside
  exact (enabled.2 block size holds.inUse kept offset inside).trans (holds.bytes offset inside)

theorem Memory.Holds.kept (holds : memory.Holds block size contents) (owned : block ∈ blocks)
    (enabled : (memorySystem threads pageSize).Enabled memory access)
    (undisturbed : Undisturbed blocks memory access)
    (result : (memorySystem threads pageSize).step memory access = some next) :
    next.Holds block size contents := by
  cases access with
  | step event bytes => exact holds.step enabled (undisturbed.2 block owned) result
  | store thread address value =>
      rw [← Option.some.inj result]
      refine ⟨holds.inUse, ?_⟩
      intro offset inside
      have different : block + offset ≠ address := by
        intro equal
        exact undisturbed block owned size holds.inUse ⟨by omega, by omega⟩
      change Function.update memory.bytes address value (block + offset) = _
      rw [Function.update_of_ne different]
      exact holds.bytes offset inside

theorem inv_access (ok : PageSize pageSize) (inv : Inv pageSize memory.state)
    (enabled : (memorySystem threads pageSize).Enabled memory access)
    (undisturbed : Undisturbed blocks memory access)
    (result : (memorySystem threads pageSize).step memory access = some next) :
    Inv pageSize next.state := by
  cases access with
  | step event bytes =>
      obtain ⟨state, stepped, isNext⟩ := Option.map_eq_some_iff.mp result
      obtain ⟨_, outcome, newInv⟩ := inv.step ok enabled.1 undisturbed.1
      rw [← isNext, ← Option.some.inj (outcome.symm.trans stepped)]
      exact newInv
  | store thread address value =>
      rw [← Option.some.inj result]
      exact inv

/-! ## Calls -/

/-- A call that begins with this event, during which nobody else uses the blocks. -/
structure Call (pageSize : Nat) (memory : Memory threads) (event : Event threads)
    (blocks : List Nat) (next : Memory threads) : Prop where
  begins : ∃ bytes first,
    (memorySystem threads pageSize).Enabled memory (.step event bytes) ∧
    Harmless memory.state event ∧
    (memorySystem threads pageSize).step memory (.step event bytes) = some first ∧
    (memorySystem threads pageSize).Leads
      (fun memory access => memory.state.status event.actor ≠ .idle ∧
        Undisturbed blocks memory access) first next
  ends : next.state.status event.actor = .idle

/-- Accesses of the other threads between two calls. -/
def Pause (pageSize : Nat) (memory : Memory threads) (thread : Fin threads)
    (blocks : List Nat) (next : Memory threads) : Prop :=
  (memorySystem threads pageSize).Leads
    (fun memory access => access.actor ≠ thread ∧ Undisturbed blocks memory access) memory next

theorem leads_keeps {allowed : Memory threads → Access threads → Prop} (ok : PageSize pageSize)
    (allows : ∀ memory access, allowed memory access → Undisturbed blocks memory access)
    (leads : (memorySystem threads pageSize).Leads allowed memory next)
    (inv : Inv pageSize memory.state) :
    Inv pageSize next.state ∧ ∀ block ∈ blocks, ∀ size contents,
      memory.Holds block size contents → next.Holds block size contents := by
  refine @Machine.Leads.invariant _ _ _ _ (fun next => Inv pageSize next.state ∧
    ∀ block ∈ blocks, ∀ size contents,
      memory.Holds block size contents → next.Holds block size contents) ?_ _ _ leads
    ⟨inv, fun _ _ _ _ holds => holds⟩
  intro middle access next ⟨inv, keeps⟩ enabled isAllowed result
  have undisturbed := allows middle access isAllowed
  refine ⟨inv_access ok inv enabled undisturbed result, ?_⟩
  intro block owned size contents holds
  exact (keeps block owned size contents holds).kept owned enabled undisturbed result

theorem Pause.keeps (ok : PageSize pageSize) (pause : Pause pageSize memory thread blocks next)
    (inv : Inv pageSize memory.state) :
    Inv pageSize next.state ∧ ∀ block ∈ blocks, ∀ size contents,
      memory.Holds block size contents → next.Holds block size contents :=
  leads_keeps ok (fun _ _ isAllowed => isAllowed.2) pause inv

variable {event : Event threads}

theorem Call.keeps (ok : PageSize pageSize) (call : Call pageSize memory event blocks next)
    (inv : Inv pageSize memory.state) :
    Inv pageSize next.state ∧ ∀ block ∈ blocks, event ≠ .free event.actor block →
      ∀ size contents, memory.Holds block size contents → next.Holds block size contents := by
  obtain ⟨bytes, first, enabled, harmless, result, leads⟩ := call.begins
  have firstInv : Inv pageSize first.state := by
    obtain ⟨state, stepped, isFirst⟩ := Option.map_eq_some_iff.mp result
    obtain ⟨_, outcome, newInv⟩ := inv.step ok enabled.1 harmless
    rw [← isFirst, ← Option.some.inj (outcome.symm.trans stepped)]
    exact newInv
  obtain ⟨newInv, keeps⟩ := leads_keeps ok (fun _ _ isAllowed => isAllowed.2) leads firstInv
  refine ⟨newInv, ?_⟩
  intro block owned notFreed size contents holds
  exact keeps block owned size contents (holds.step enabled notFreed result)

/-- The steps of the allocator in a call of `ltmalloc`. -/
theorem Call.returns {request : Nat}
    (call : Call pageSize memory (.malloc thread request) blocks next) :
    Returns pageSize memory.state thread request next.state := by
  obtain ⟨bytes, first, enabled, harmless, result, leads⟩ := call.begins
  obtain ⟨state, stepped, isFirst⟩ := Option.map_eq_some_iff.mp result
  have isState : first.state = state := by rw [← isFirst]
  refine ⟨⟨first.state, enabled.1, harmless, isState ▸ stepped, ?_⟩, call.ends⟩
  clear result call isFirst
  induction leads with
  | refl => exact .refl
  | step _ enabled isAllowed result induction =>
      next middle last access _ =>
      cases access with
      | step event bytes =>
          obtain ⟨state, stepped, isNext⟩ := Option.map_eq_some_iff.mp result
          rw [← isNext]
          exact induction.step enabled.1 ⟨isAllowed.2.1, isAllowed.1⟩ stepped
      | store other address value =>
          rw [← Option.some.inj result]
          exact induction

/-- A block that is in use during the whole call is not the one returned. -/
theorem Call.apart (ok : PageSize pageSize) {request : Nat} (inv : Inv pageSize memory.state)
    (call : Call pageSize memory (.malloc thread request) blocks next)
    (owned : block ∈ blocks) (inUse : memory.state.InUse block size) :
    next.state.result thread ≠ block := by
  obtain ⟨bytes, first, enabled, harmless, result, leads⟩ := call.begins
  obtain ⟨state, stepped, isFirst⟩ := Option.map_eq_some_iff.mp result
  obtain ⟨_, outcome, firstInv⟩ := inv.step ok enabled.1 harmless
  rw [Option.some.inj (outcome.symm.trans stepped)] at firstInv
  have start : Inv pageSize first.state ∧ first.state.InUse block size ∧
      Serving request first.state thread ∧ first.state.Apart thread block := by
    rw [← isFirst]
    exact ⟨firstInv, step_inUse stepped inUse nofun,
      inv.malloc_serving enabled.1 harmless stepped,
      inv.malloc_apart enabled.1 harmless stepped inUse⟩
  refine (@Machine.Leads.invariant _ _ _ _ (fun memory => Inv pageSize memory.state ∧
    memory.state.InUse block size ∧ Serving request memory.state thread ∧
      memory.state.Apart thread block) ?_ _ _ leads start).2.2.2 call.ends
  clear enabled harmless result stepped
  intro memory access next ⟨inv, inUse, serving, _⟩ enabled ⟨busy, undisturbed⟩ result
  have newInv := inv_access ok inv enabled undisturbed result
  cases access with
  | store other address value =>
      rw [← Option.some.inj result]
      exact ⟨inv, inUse, serving, fun isIdle => absurd isIdle busy⟩
  | step event bytes =>
      obtain ⟨state, stepped, isNext⟩ := Option.map_eq_some_iff.mp result
      rw [← isNext] at newInv ⊢
      refine ⟨newInv, step_inUse stepped inUse (undisturbed.2 block owned), ?_⟩
      by_cases own : thread = event.actor
      · subst own
        exact ⟨inv.step_serving ok enabled.1 undisturbed.1 busy serving stepped,
          inv.step_apart ok enabled.1 undisturbed.1 (serving.continues enabled.1 busy) stepped
            inUse⟩
      · have same := (step_othersSame stepped).status thread own
        exact ⟨serving.others busy own stepped, fun isIdle => absurd (same ▸ isIdle) busy⟩

/-! ## Freed blocks -/

theorem free_small_classes {state next : State threads} (inside : block % chunkSize ≠ 0)
    (result : state.free thread block = some next) :
    (∀ other, other ≠ state.headers (block / chunkSize * chunkSize) →
      next.classes other = state.classes other) ∧ next.large = state.large := by
  rw [State.free, if_pos inside] at result
  obtain ⟨⟨tc, cc⟩, _, isNext⟩ := Option.bind_eq_some_iff.mp result
  rw [← Option.some.inj isNext]
  exact ⟨fun other different => Function.update_of_ne different .., rfl⟩

/-- The block is not in use with any size. -/
def State.Gone (state : State threads) (block : Nat) : Prop := ∀ size, ¬ state.InUse block size

theorem Inv.gone_of_large {state : State threads} (inv : Inv pageSize state)
    (aligned : block % chunkSize = 0) (absent : ∀ size, (block, size) ∉ state.large) :
    state.Gone block := by
  intro size inUse
  rcases inUse with ⟨sizeClass, isLive, _⟩ | isLarge
  · exact (inv.chunk_of_live isLive).2.1 aligned
  · exact absent size isLarge

theorem Inv.gone_of_small {state next : State threads} (inv : Inv pageSize state)
    (isIdle : state.status thread = .idle) {sizeClass : Nat}
    (isLive : block ∈ (state.classes sizeClass).live)
    (result : state.free thread block = some next) :
    next.status thread = .idle ∧ next.Gone block := by
  obtain ⟨isChunk, inside, _⟩ := inv.chunk_of_live isLive
  obtain ⟨after, outcome, newInv, status, live⟩ := inv.freeSmall isIdle isLive
  have isAfter : after = next := Option.some.inj (outcome.symm.trans result)
  subst isAfter
  obtain ⟨others, large⟩ := free_small_classes inside result
  rw [inv.headers sizeClass _ isChunk] at others
  refine ⟨by rw [status]; exact isIdle, ?_⟩
  rintro size (⟨other, stillLive, _⟩ | isLarge)
  · by_cases same : other = sizeClass
    · rw [same, live] at stillLive
      obtain ⟨tails, classInv⟩ := inv.classInv sizeClass (inv.served_of_live isLive)
      have once := Multiset.nodup_of_le ((Multiset.le_add_right _ _).trans
        ((Multiset.le_add_right _ _).trans (Multiset.le_add_right _ _)))
        (classInv.blocks_nodup (inv.served_of_live isLive).geometry)
      exact once.notMem_erase stillLive
    · rw [others other same] at stillLive
      exact same (inv.class_unique stillLive isLive)
  · rw [large] at isLarge
    exact inside (inv.large _ isLarge).aligned

/-- A step of the thread that unmaps the block, or of another one. -/
theorem Inv.unmapping_step {state next : State threads} (inv : Inv pageSize state)
    (newInv : Inv pageSize next) (isStatus : state.status thread = .unmappingLarge block size)
    (enabled : Enabled pageSize state event)
    (result : Ltalloc.step pageSize state event = some next) :
    next.status thread = .unmappingLarge block size ∨
      next.status thread = .idle ∧ next.Gone block := by
  by_cases own : event.actor = thread
  · have statusInv := inv.status thread
    have isHeld : (block, size) ∈ (state.status thread).held pageSize := by
      rw [isStatus]
      exact Multiset.mem_singleton_self _
    rw [isStatus] at statusInv
    subst own
    cases event with
    | unmapLarge thread =>
        obtain ⟨_, after, outcome, _, status, large, _⟩ := inv.unmapLarge isStatus
        have isAfter : after = next := Option.some.inj (outcome.symm.trans result)
        subst isAfter
        refine .inr ⟨by rw [status]; exact Function.update_self .., ?_⟩
        refine newInv.gone_of_large statusInv.aligned ?_
        intro other isLarge
        rw [large] at isLarge
        exact inv.held_ne_large isHeld isLarge rfl
    | malloc thread size => exact nomatch isStatus.symm.trans enabled.1
    | free thread size => exact nomatch isStatus.symm.trans enabled.1
    | exit thread => exact nomatch isStatus.symm.trans enabled
    | squeeze thread padsz => exact nomatch isStatus.symm.trans enabled
    | allocateChunk thread region =>
        obtain ⟨⟨_, other⟩, _⟩ := enabled
        exact nomatch isStatus.symm.trans other
    | chunkFails thread =>
        obtain ⟨⟨_, other⟩, _⟩ := enabled
        exact nomatch isStatus.symm.trans other
    | allocatePage thread region =>
        obtain ⟨⟨_, _, other⟩, _⟩ := enabled
        exact nomatch isStatus.symm.trans other
    | allocateLarge thread region =>
        obtain ⟨_, other, _⟩ := enabled
        exact nomatch isStatus.symm.trans other
    | giveBack thread counted =>
        obtain ⟨_, _, _, other, _⟩ := enabled
        exact nomatch isStatus.symm.trans other
    | largeFails thread | releaseNext thread =>
        obtain ⟨_, other⟩ := enabled
        exact nomatch isStatus.symm.trans other
    | insertChunk thread | register thread | pageFails thread | detachLists thread =>
        obtain ⟨_, _, other⟩ := enabled
        exact nomatch isStatus.symm.trans other
    | registerWithPage thread | putOff thread | unmapChunk thread =>
        obtain ⟨_, _, _, other⟩ := enabled
        exact nomatch isStatus.symm.trans other
  · left
    rw [(step_othersSame result).status thread (Ne.symm own), isStatus]

/-- After `ltfree` the block is not in use. -/
theorem Call.gone (ok : PageSize pageSize) (inv : Inv pageSize memory.state)
    (call : Call pageSize memory (.free thread block) blocks next)
    (inUse : memory.state.InUse block size) : next.state.Gone block := by
  obtain ⟨bytes, first, enabled, harmless, result, leads⟩ := call.begins
  obtain ⟨state, stepped, isFirst⟩ := Option.map_eq_some_iff.mp result
  obtain ⟨_, outcome, firstInv⟩ := inv.step ok enabled.1 harmless
  rw [Option.some.inj (outcome.symm.trans stepped)] at firstInv
  have start : Inv pageSize first.state ∧
      (first.state.status thread = .unmappingLarge block size ∨
        first.state.status thread = .idle ∧ first.state.Gone block) := by
    rw [← isFirst]
    refine ⟨firstInv, ?_⟩
    rcases inUse with ⟨sizeClass, isLive, _⟩ | isLarge
    · exact .inr (inv.gone_of_small enabled.1.1 isLive stepped)
    · obtain ⟨after, freed, _, status, _⟩ := inv.freeLarge ok enabled.1.1 isLarge
      left
      change state.status thread = _
      rw [← Option.some.inj (freed.symm.trans stepped), status, Function.update_self]
  clear enabled harmless result stepped isFirst
  obtain ⟨_, unmapping | ⟨_, gone⟩⟩ := @Machine.Leads.invariant _ _ _ _ (fun memory =>
    Inv pageSize memory.state ∧ (memory.state.status thread = .unmappingLarge block size ∨
      memory.state.status thread = .idle ∧ memory.state.Gone block)) (by
    intro memory access next ⟨inv, place⟩ enabled ⟨busy, undisturbed⟩ result
    have newInv := inv_access ok inv enabled undisturbed result
    have isStatus := place.resolve_right fun isIdle => busy isIdle.1
    refine ⟨newInv, ?_⟩
    cases access with
    | store other address value =>
        rw [← Option.some.inj result]
        exact .inl isStatus
    | step event bytes =>
        obtain ⟨state, stepped, isNext⟩ := Option.map_eq_some_iff.mp result
        rw [← isNext] at newInv ⊢
        exact inv.unmapping_step newInv isStatus enabled.1 stepped) _ _ leads start
  · exact nomatch unmapping.symm.trans call.ends
  · exact gone

end MallocSurvey.Ltalloc
