import MallocSurvey.Ltalloc.LargeSteps

/-! # The registry in runs of large blocks

Threads allocate and free blocks that no class serves. Beside the state the size that each
thread last asked for is kept, and the blocks in use with the size that was asked for. -/

namespace MallocSurvey.Ltalloc

open Library

/-- The size of the region that serves a request. -/
def largeSize (size : Nat) : Nat := (size + (chunkSize - 1)) % 2 ^ 64 / chunkSize * chunkSize

/-- `ltmsize`. -/
def State.msize {threads : Nat} (state : State threads) (block : Nat) : Option Nat :=
  if block % chunkSize ≠ 0 then
    some (classToSize (state.headers (block / chunkSize * chunkSize)))
  else if block = 0 then some 0
  else (state.registry.trie.lookup (.ofNat 64 block)).map BitVec.toNat

structure Traced (threads : Nat) where
  state : State threads
  asked : Fin threads → Nat
  requests : Multiset (Nat × Nat)

namespace Traced

variable {threads : Nat}

/-- The call of a thread may have returned a block. -/
def returned (traced : Traced threads) (thread : Fin threads) (next : State threads) :
    Traced threads :=
  if next.status thread = .idle then
    { traced with
      state := next
      requests := (next.result thread, traced.asked thread) ::ₘ traced.requests }
  else { traced with state := next }

def step (pageSize : Nat) (traced : Traced threads) (event : Event threads) :
    Option (Traced threads) := do
  let next ← Ltalloc.step pageSize traced.state event
  match event with
  | .malloc thread size =>
      return ⟨next, Function.update traced.asked thread size, traced.requests⟩
  | .register thread | .registerWithPage thread => return traced.returned thread next
  | .free _ block =>
      return { traced with
        state := next, requests := traced.requests.filter fun request => request.1 ≠ block }
  | _ => return { traced with state := next }

end Traced

/-- Calls of `ltmalloc` above the limit of the classes and of `ltfree` on what they return;
a call of the system fails only where it can ask for nothing. -/
def LargeOnly {threads : Nat} (traced : Traced threads) : Event threads → Prop
  | .malloc _ size => maxBlockSize < size
  | .free _ block => block = 0 ∨ ∃ size, (block, size) ∈ traced.state.large
  | .allocateLarge _ _ | .largeFails _ | .register _ | .allocatePage _ _ | .registerWithPage _
  | .unmapLarge _ => True
  | _ => False

def largeSystem (threads pageSize : Nat) : Machine (Traced threads) (Event threads) where
  Init := fun traced => ∃ headers lastWord nodes asked,
    traced = ⟨.initial threads headers lastWord nodes, asked, 0⟩
  Enabled := fun traced => Enabled pageSize traced.state
  step := Traced.step pageSize

/-- The size that the thread goes on with is that of its request. -/
def StatusAsked (asked : Nat) : Status → Prop
  | .allocatingLarge size | .registering _ size | .allocatingPage _ size
  | .registeringWithPage _ size _ => size = largeSize asked ∧ asked < 2 ^ 64
  | _ => True

structure TracedInv {threads : Nat} (pageSize : Nat) (traced : Traced threads) : Prop where
  inv : Inv pageSize traced.state
  asked : ∀ thread, StatusAsked (traced.asked thread) (traced.state.status thread)
  requests : traced.requests.map (fun request => (request.1, largeSize request.2)) =
    traced.state.large
  small : ∀ request ∈ traced.requests, request.2 < 2 ^ 64

variable {threads pageSize : Nat} {traced next : Traced threads}

/-- Rounding up does not wrap where the system had something to map. -/
theorem le_largeSize {size : Nat} (inRange : size < 2 ^ 64) (positive : 0 < largeSize size) :
    size ≤ largeSize size := by
  unfold largeSize chunkSize at *
  omega

theorem statusAsked_update {asked newAsked : Fin threads → Nat}
    {before after : Fin threads → Status} {thread : Fin threads} {status : Status}
    (inv : ∀ other, StatusAsked (asked other) (before other))
    (changed : after = Function.update before thread status)
    (own : StatusAsked (newAsked thread) status)
    (others : ∀ other ≠ thread, newAsked other = asked other) :
    ∀ other, StatusAsked (newAsked other) (after other) := by
  intro other
  rw [changed]
  by_cases same : other = thread
  · rw [same, Function.update_self]
    exact own
  · rw [Function.update_of_ne same, others other same]
    exact inv other

/-- The entry of a block is the only one with its base. -/
theorem filter_requests {requests large : Multiset (Nat × Nat)} {block size : Nat}
    (isMap : requests.map (fun request => (request.1, largeSize request.2)) = large)
    (member : (block, size) ∈ large) (nodup : (large.map Prod.fst).Nodup) :
    (requests.filter fun request => request.1 ≠ block).map
        (fun request => (request.1, largeSize request.2)) = large.erase (block, size) := by
  have filtered : (requests.filter fun request => request.1 ≠ block).map
      (fun request => (request.1, largeSize request.2)) =
        large.filter fun item => item.1 ≠ block := by
    rw [← isMap, Multiset.filter_map]
    rfl
  obtain ⟨rest, isRest⟩ := Multiset.exists_cons_of_mem member
  rw [isRest, Multiset.map_cons, Multiset.nodup_cons] at nodup
  rw [filtered, isRest, Multiset.filter_cons_of_neg _ (by simp), Multiset.erase_cons_head,
    Multiset.filter_eq_self]
  intro item isItem same
  have isBase := Multiset.mem_map_of_mem Prod.fst isItem
  rw [same] at isBase
  exact nodup.1 isBase

namespace TracedInv

variable {thread : Fin threads} {block size region page : Nat}

/-- The call returns a block. -/
theorem returned (inv : TracedInv pageSize traced) {state : State threads}
    (newInv : Inv pageSize state)
    (changed : state.status = Function.update traced.state.status thread .idle)
    (isResult : state.result thread = block)
    (isLarge : state.large = (block, size) ::ₘ traced.state.large)
    (isSize : size = largeSize (traced.asked thread) ∧ traced.asked thread < 2 ^ 64) :
    TracedInv pageSize (traced.returned thread state) := by
  have isIdle : state.status thread = .idle := by rw [changed, Function.update_self]
  rw [Traced.returned, if_pos isIdle]
  refine ⟨newInv, statusAsked_update inv.asked changed trivial fun _ _ => rfl, ?_, ?_⟩
  · simp only [Multiset.map_cons, inv.requests, isLarge, isResult, isSize.1]
  · intro request member
    rcases Multiset.mem_cons.mp member with isNew | isOld
    · rw [isNew]
      exact isSize.2
    · exact inv.small request isOld

/-- The blocks in use stay the same. -/
theorem proceed (inv : TracedInv pageSize traced) {state : State threads} {status : Status}
    (newInv : Inv pageSize state)
    (changed : state.status = Function.update traced.state.status thread status)
    (own : StatusAsked (traced.asked thread) status) (isLarge : state.large = traced.state.large) :
    TracedInv pageSize { traced with state := state } :=
  ⟨newInv, statusAsked_update inv.asked changed own fun _ _ => rfl, inv.requests.trans isLarge.symm,
    inv.small⟩

theorem step (inv : TracedInv pageSize traced) (ok : PageSize pageSize) {event : Event threads}
    (enabled : Enabled pageSize traced.state event) (allowed : LargeOnly traced event) :
    ∃ next, traced.step pageSize event = some next ∧ TracedInv pageSize next := by
  cases event with
  | malloc thread size =>
      obtain ⟨isIdle, inRange⟩ := enabled
      obtain ⟨result, newInv⟩ := inv.inv.mallocLarge isIdle allowed inRange
      refine ⟨⟨traced.state.setStatus thread (.allocatingLarge (largeSize size)),
        Function.update traced.asked thread size, traced.requests⟩,
        by rw [Traced.step, Ltalloc.step, result]; rfl, newInv, ?_, inv.requests, inv.small⟩
      refine statusAsked_update inv.asked rfl ?_ fun other different => ?_
      · simp only [Function.update_self]
        exact ⟨rfl, inRange⟩
      · exact Function.update_of_ne different _ _
  | allocateLarge thread region =>
      obtain ⟨size, isStatus, positive, fresh⟩ := enabled
      obtain ⟨state, result, newInv, changed, isLarge⟩ :=
        inv.inv.allocateLarge ok isStatus positive fresh
      have asked := inv.asked thread
      rw [isStatus] at asked
      exact ⟨_, by rw [Traced.step, Ltalloc.step, result]; rfl,
        inv.proceed newInv changed asked isLarge⟩
  | largeFails thread =>
      obtain ⟨size, isStatus⟩ := enabled
      exact ⟨_, rfl, inv.proceed (inv.inv.largeFails isStatus) rfl trivial rfl⟩
  | register thread =>
      obtain ⟨block, size, isStatus⟩ := enabled
      obtain ⟨state, result, newInv, outcome⟩ := inv.inv.register ok isStatus
      have asked := inv.asked thread
      rw [isStatus] at asked
      refine ⟨_, by rw [Traced.step, Ltalloc.step, result]; rfl, ?_⟩
      rcases outcome with ⟨changed, isLarge⟩ | ⟨changed, isResult, isLarge⟩
      · have waits : ¬ state.status thread = .idle := by
          rw [changed, Function.update_self]
          exact Status.noConfusion
        rw [Traced.returned, if_neg waits]
        exact inv.proceed newInv changed asked isLarge
      · exact inv.returned newInv changed isResult isLarge asked
  | allocatePage thread region =>
      obtain ⟨⟨block, size, isStatus⟩, fresh⟩ := enabled
      obtain ⟨state, result, newInv, changed, isLarge⟩ :=
        inv.inv.allocatePage ok isStatus fresh
      have asked := inv.asked thread
      rw [isStatus] at asked
      exact ⟨_, by rw [Traced.step, Ltalloc.step, result]; rfl,
        inv.proceed newInv changed asked isLarge⟩
  | registerWithPage thread =>
      obtain ⟨block, size, page, isStatus⟩ := enabled
      obtain ⟨state, result, newInv, changed, isResult, isLarge⟩ :=
        inv.inv.registerWithPage ok isStatus
      have asked := inv.asked thread
      rw [isStatus] at asked
      exact ⟨_, by rw [Traced.step, Ltalloc.step, result]; rfl,
        inv.returned newInv changed isResult isLarge asked⟩
  | free thread block =>
      rcases allowed with isNull | ⟨size, member⟩
      · refine ⟨{ traced with
            requests := traced.requests.filter fun request => request.1 ≠ block }, ?_, ?_⟩
        · rw [Traced.step, Ltalloc.step, State.free, if_neg (by simp [isNull]), if_pos isNull]
          rfl
        · have untouched : (traced.requests.filter fun request => request.1 ≠ block) =
              traced.requests := by
            rw [Multiset.filter_eq_self]
            intro request member isBlock
            have inLarge := Multiset.mem_map_of_mem
              (fun request => (request.1, largeSize request.2)) member
            rw [inv.requests] at inLarge
            exact (inv.inv.large _ inLarge).nonzero (isBlock.trans isNull)
          rw [untouched]
          exact inv
      · obtain ⟨state, result, newInv, changed, isLarge⟩ :=
          inv.inv.freeLarge ok enabled.1 member
        refine ⟨{ traced with
            state := state
            requests := traced.requests.filter fun request => request.1 ≠ block },
          by rw [Traced.step, Ltalloc.step, result]; rfl, newInv,
          statusAsked_update inv.asked changed trivial fun _ _ => rfl, ?_, ?_⟩
        · exact (filter_requests inv.requests member inv.inv.large_nodup).trans isLarge.symm
        · exact fun request isOld => inv.small request (Multiset.mem_of_mem_filter isOld)
  | unmapLarge thread =>
      obtain ⟨block, size, isStatus⟩ := enabled
      obtain ⟨_, state, result, newInv, changed, isLarge, _⟩ := inv.inv.unmapLarge isStatus
      exact ⟨_, by rw [Traced.step, Ltalloc.step, result]; rfl,
        inv.proceed newInv changed trivial isLarge⟩
  | _ => exact allowed.elim

theorem reachable (ok : PageSize pageSize)
    (reached : (largeSystem threads pageSize).Reachable LargeOnly traced) :
    TracedInv pageSize traced := by
  induction reached with
  | init isInit =>
      obtain ⟨headers, lastWord, nodes, asked, isTraced⟩ := isInit
      rw [isTraced]
      exact ⟨inv_initial threads pageSize headers lastWord nodes, fun _ => trivial, rfl,
        fun _ member => absurd member (Multiset.notMem_zero _)⟩
  | step _ enabled allowed result induction =>
      obtain ⟨next, isNext, newInv⟩ := induction.step ok enabled allowed
      cases result.symm.trans isNext
      exact newInv

end TracedInv

/-! ## The nodes -/

/-- The page of nodes that only the thread refers to. -/
def Status.heldPages : Status → Multiset Nat
  | .registeringWithPage _ _ page => {page}
  | _ => 0

def State.heldPages (state : State threads) : Multiset Nat :=
  ∑ thread, (state.status thread).heldPages

/-- All pages that were mapped for nodes. -/
def State.obtained (state : State threads) : Multiset Nat := state.pages + state.heldPages

theorem Status.heldPages_le (status : Status) :
    status.heldPages.map (fun page => (page, pageSize)) ≤ status.held pageSize := by
  cases status with
  | registeringWithPage block size page =>
      simp only [Status.heldPages, Status.held, Multiset.map_singleton]
      exact Multiset.le_add_left _ _
  | _ => exact Multiset.zero_le _

theorem State.heldPages_le (state : State threads) :
    state.heldPages.map (fun page => (page, pageSize)) ≤ state.held pageSize := by
  unfold State.heldPages State.held
  have mapped := map_sum (Multiset.mapAddMonoidHom fun page : Nat => (page, pageSize))
    (fun thread => (state.status thread).heldPages) Finset.univ
  simp only [Multiset.coe_mapAddMonoidHom] at mapped
  rw [mapped]
  exact Finset.sum_le_sum fun thread _ => (state.status thread).heldPages_le

theorem Inv.obtained_nodup {state : State threads} (inv : Inv pageSize state) :
    state.obtained.Nodup := by
  have pages : state.obtained.map (fun page => (page, pageSize)) ≤ state.owned pageSize := by
    rw [State.obtained, Multiset.map_add, State.owned, add_comm]
    have held : state.heldPages.map (fun page => (page, pageSize)) ≤ state.held pageSize :=
      state.heldPages_le
    refine le_trans (add_le_add held (le_refl _)) ?_
    refine le_trans (Multiset.le_add_right _ (state.classRegions +
      chunkRegions state.padChunks + state.large)) (le_of_eq ?_)
    rw [State.pageRegions, Multiset.map_coe]
    abel
  have nodup := Multiset.nodup_of_le (Multiset.map_le_map (inv.ledger ▸ pages)) inv.nodup
  rw [Multiset.map_map] at nodup
  exact Multiset.Nodup.of_map _ nodup

theorem Inv.obtained_isPage {state : State threads} (inv : Inv pageSize state) {page : Nat}
    (member : page ∈ state.obtained) (registry : ∀ page ∈ state.pages, IsPage pageSize page) :
    IsPage pageSize page := by
  rcases Multiset.mem_add.mp member with inPages | inHeld
  · exact registry page inPages
  · obtain ⟨thread, _, isHeld⟩ := Multiset.mem_sum.mp inHeld
    have statusInv := inv.status thread
    revert isHeld statusInv
    generalize state.status thread = status
    intro isHeld statusInv
    cases status with
    | registeringWithPage block size other =>
        rw [Multiset.mem_singleton.mp isHeld]
        exact statusInv.2
    | _ => exact absurd isHeld (Multiset.notMem_zero _)

theorem Inv.nodes_nodup {state : State threads} (inv : Inv pageSize state)
    (ok : PageSize pageSize) :
    (state.obtained.bind fun page => (Registry.pageNodes pageSize page : Multiset Word)).Nodup := by
  obtain ⟨_, _, _, _, registryInv, _⟩ := inv.registry
  have nodup := inv.obtained_nodup
  have isPage : ∀ page ∈ state.obtained, IsPage pageSize page :=
    fun page member => inv.obtained_isPage member registryInv.isPage
  revert nodup isPage
  generalize state.obtained = obtained
  induction obtained using Quotient.inductionOn with
  | h pages =>
      intro nodup isPage
      have bind := Multiset.coe_bind pages (Registry.pageNodes pageSize)
      exact bind ▸ Multiset.coe_nodup.mpr
        (pages_nodup ok (fun page member => isPage page member) nodup)

/-! ## The registry is exact -/

structure RegistryExact (pageSize : Nat) (traced : Traced threads) (tree : Trie)
    (contents : Word → Option Word) (free : List Word) (tails : List Nat) : Prop where
  represents : Represents traced.state.registry.trie tree contents
  contents : ∀ key value, contents key = some value ↔
    ∃ request ∈ traced.requests, key.toNat = request.1 ∧ value.toNat = largeSize request.2
  freeNodes : FreeChain traced.state.registry.trie.nodes
    traced.state.registry.trie.freeNodesList free
  chain : TailChain pageSize (pageLink traced.state.registry.trie.nodes)
    traced.state.registry.newAllocatedPage.toNat tails
  /-- Every node is in the trie, free, in the tail of a page or held by a thread. -/
  nodes : (tree.addresses : Multiset Word) + (free : Multiset Word) +
      (tails.flatMap (tailNodes pageSize) : Multiset Word) +
      (traced.state.heldPages.bind fun page =>
        (Registry.pageNodes pageSize page : Multiset Word)) =
    traced.state.obtained.bind fun page => (Registry.pageNodes pageSize page : Multiset Word)
  once : (traced.state.obtained.bind fun page =>
    (Registry.pageNodes pageSize page : Multiset Word)).Nodup
  sizes : ∀ request ∈ traced.requests,
    traced.state.msize request.1 = some (largeSize request.2) ∧ request.2 ≤ largeSize request.2
  mapped : ∀ request ∈ traced.requests, (request.1, largeSize request.2) ∈ traced.state.mapped
  bases : (traced.state.mapped.map Prod.fst).Nodup

theorem TracedInv.exact (inv : TracedInv pageSize traced) (ok : PageSize pageSize) :
    ∃ tree contents free tails, RegistryExact pageSize traced tree contents free tails := by
  obtain ⟨contents, tree, free, tails, registryInv, holds, only⟩ := inv.inv.registry
  have isLarge : ∀ request ∈ traced.requests,
      (request.1, largeSize request.2) ∈ traced.state.large := by
    intro request member
    rw [← inv.requests]
    exact Multiset.mem_map_of_mem (fun request => (request.1, largeSize request.2)) member
  refine ⟨tree, contents, free, tails, registryInv.represents, ?_, registryInv.freeNodes,
    registryInv.chain, ?_, inv.inv.nodes_nodup ok, ?_, ?_, inv.inv.nodup⟩
  · intro key value
    constructor
    · intro found
      have member := only key value found
      rw [← inv.requests] at member
      obtain ⟨request, isRequest, isEntry⟩ := Multiset.mem_map.mp member
      exact ⟨request, isRequest, (congrArg Prod.fst isEntry).symm, (congrArg Prod.snd isEntry).symm⟩
    · rintro ⟨request, isRequest, isKey, isValue⟩
      have found := holds _ (isLarge request isRequest)
      simp only [← isKey, ← isValue, BitVec.ofNat_toNat, BitVec.setWidth_eq] at found
      exact found
  · have ledger := registryInv.ledger
    rw [add_zero] at ledger
    rw [ledger, State.obtained, Multiset.add_bind]
    exact congrArg (· + _) (Multiset.coe_bind _ _).symm
  · intro request member
    have large := inv.inv.large _ (isLarge request member)
    refine ⟨?_, le_largeSize (inv.small request member) large.positive⟩
    rw [State.msize, if_neg (not_not.mpr large.aligned), if_neg large.nonzero,
      registryInv.represents.lookup_eq (holds _ (isLarge request member)), Option.map_some,
      large.toNat_size]
  · intro request member
    rw [inv.inv.ledger, State.owned]
    simp [isLarge request member]

/-- In every run of calls on large blocks the registry is exact, no call is undefined, and
`sys_free` unmaps the region that was mapped for its block. -/
theorem registry_exact (ok : PageSize pageSize)
    (reached : (largeSystem threads pageSize).Reachable LargeOnly traced) :
    (∃ tree contents free tails, RegistryExact pageSize traced tree contents free tails) ∧
      (largeSystem threads pageSize).Safe LargeOnly traced ∧
      (∀ thread, ∀ request ∈ traced.requests, traced.state.status thread = .idle → ∃ next,
        traced.step pageSize (.free thread request.1) = some next ∧
        next.state.status thread = .unmappingLarge request.1 (largeSize request.2)) ∧
      ∀ thread block size, traced.state.status thread = .unmappingLarge block size →
        (block, size) ∈ traced.state.mapped ∧ ∃ next,
          traced.step pageSize (.unmapLarge thread) = some next ∧
          next.state.mapped = traced.state.mapped.erase (block, size) := by
  have inv := TracedInv.reachable ok reached
  refine ⟨inv.exact ok, ?_, ?_, ?_⟩
  · intro event enabled allowed fault
    obtain ⟨next, result, _⟩ := inv.step ok enabled allowed
    cases fault.symm.trans result
  · intro thread request member isIdle
    have isLarge : (request.1, largeSize request.2) ∈ traced.state.large := by
      rw [← inv.requests]
      exact Multiset.mem_map_of_mem (fun request => (request.1, largeSize request.2)) member
    obtain ⟨state, result, _, changed, _⟩ := inv.inv.freeLarge ok isIdle isLarge
    refine ⟨{ traced with
        state := state
        requests := traced.requests.filter fun other => other.1 ≠ request.1 },
      by rw [Traced.step, Ltalloc.step, result]; rfl, ?_⟩
    simp only
    rw [changed, Function.update_self]
  · intro thread block size isStatus
    obtain ⟨isMapped, state, result, _, _, _, unmapped⟩ := inv.inv.unmapLarge isStatus
    exact ⟨isMapped, { traced with state := state },
      by rw [Traced.step, Ltalloc.step, result]; rfl, unmapped⟩

theorem Traced.step_registerWithPage {thread : Fin threads} {state : State threads}
    (result : traced.state.registerWithPage thread pageSize = some state)
    (isIdle : state.status thread = .idle) :
    traced.step pageSize (.registerWithPage thread) = some { traced with
      state := state
      requests := (state.result thread, traced.asked thread) ::ₘ traced.requests } := by
  simp only [Traced.step, Ltalloc.step, result, Option.bind_eq_bind, Option.bind_some,
    Traced.returned, if_pos isIdle, Option.pure_def]

/-- A block of 100000 bytes, with a page for its node. -/
theorem registry_exact_one : ∃ traced : Traced 1, traced.requests = {(1048576, 100000)} ∧
    (∃ tree contents free tails, RegistryExact 4096 traced tree contents free tails) ∧
      (largeSystem 1 4096).Safe LargeOnly traced ∧
      (∀ thread, ∀ request ∈ traced.requests, traced.state.status thread = .idle → ∃ next,
        traced.step 4096 (.free thread request.1) = some next ∧
        next.state.status thread = .unmappingLarge request.1 (largeSize request.2)) ∧
      ∀ thread block size, traced.state.status thread = .unmappingLarge block size →
        (block, size) ∈ traced.state.mapped ∧ ∃ next,
          traced.step 4096 (.unmapLarge thread) = some next ∧
          next.state.mapped = traced.state.mapped.erase (block, size) := by
  have ok : PageSize 4096 := ⟨by decide, by decide⟩
  let start : Traced 1 :=
    ⟨.initial 1 (fun _ => 0) (fun _ => 0) (fun _ => none), fun _ => 0, 0⟩
  have started : (largeSystem 1 4096).Reachable LargeOnly start :=
    .init ⟨fun _ => 0, fun _ => 0, fun _ => none, fun _ => 0, rfl⟩
  obtain ⟨asked, _⟩ := @Inv.mallocLarge _ _ _ (0 : Fin 1) (TracedInv.reachable ok started).inv rfl
    100000 (by decide) (by decide)
  have waiting : (largeSystem 1 4096).Reachable LargeOnly
      ⟨start.state.setStatus 0 (.allocatingLarge (largeSize 100000)),
        Function.update start.asked 0 100000, 0⟩ :=
    @Machine.Reachable.step _ _ _ _ _ _ (.malloc 0 100000) started ⟨rfl, by decide⟩
      (show maxBlockSize < 100000 by decide)
      (by simp only [largeSystem, Traced.step, Ltalloc.step, asked]; rfl)
  have mapping : (largeSystem 1 4096).Reachable LargeOnly _ :=
    @Machine.Reachable.step _ _ _ _ _ _ (.allocateLarge 0 1048576) waiting
      ⟨largeSize 100000, rfl, by decide, by decide, by decide, by decide,
        fun _ member => absurd member (Multiset.notMem_zero _)⟩ trivial rfl
  have pageless : (largeSystem 1 4096).Reachable LargeOnly _ :=
    @Machine.Reachable.step _ _ _ _ _ _ (.register 0) mapping ⟨1048576, largeSize 100000, rfl⟩
      trivial rfl
  have paging : (largeSystem 1 4096).Reachable LargeOnly _ :=
    @Machine.Reachable.step _ _ _ _ _ _ (.allocatePage 0 4096) pageless
      ⟨⟨1048576, largeSize 100000, rfl⟩, by decide, by decide, by decide, by
        intro other member
        have isBlock : other ∈ ({(1048576, largeSize 100000)} : Multiset (Nat × Nat)) := member
        rw [Multiset.mem_singleton.mp isBlock]
        decide⟩ trivial rfl
  obtain ⟨state, result, _, changed, isResult, _⟩ := @Inv.registerWithPage _ _ _ (0 : Fin 1)
    1048576 (largeSize 100000) 4096 (TracedInv.reachable ok paging).inv ok rfl
  have isIdle : state.status 0 = .idle := by rw [changed, Function.update_self]
  have registered := @Machine.Reachable.step _ _ (largeSystem 1 4096) LargeOnly _ _
    (.registerWithPage 0) paging
    ⟨1048576, largeSize 100000, 4096, rfl⟩ trivial (Traced.step_registerWithPage result isIdle)
  refine ⟨_, ?_, registry_exact ok registered⟩
  simp only [isResult]
  rfl

end MallocSurvey.Ltalloc
