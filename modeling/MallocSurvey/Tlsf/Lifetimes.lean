import MallocSurvey.Tlsf.Requests

/-! # Heaps with one pool -/

namespace MallocSurvey.Tlsf

open Library Control

/-! ## The control structure stays where it is -/

namespace Control

variable {control new : Control} {block next size : Nat} {index : Nat × Nat}

theorem address_setField (control : Control) (block : Nat) (name : Field) (value : Nat) :
    (control.setField block name value).address = control.address := rfl

@[simp] theorem address_blockSetSize :
    (control.blockSetSize block size).address = control.address := address_setField ..

@[simp] theorem address_blockSetFree :
    (control.blockSetFree block).address = control.address := address_setField ..

@[simp] theorem address_blockSetUsed :
    (control.blockSetUsed block).address = control.address := address_setField ..

@[simp] theorem address_blockSetPrevFree :
    (control.blockSetPrevFree block).address = control.address := address_setField ..

@[simp] theorem address_blockSetPrevUsed :
    (control.blockSetPrevUsed block).address = control.address := address_setField ..

theorem address_blockLinkNext (result : control.blockLinkNext block = some (new, next)) :
    new.address = control.address := by
  obtain ⟨_, _, isNew⟩ := Option.bind_eq_some_iff.mp result
  cases isNew
  exact address_setField ..

theorem address_blockMarkAsFree (result : control.blockMarkAsFree block = some new) :
    new.address = control.address := by
  obtain ⟨⟨linked, next⟩, isLinked, isNew⟩ := Option.bind_eq_some_iff.mp result
  cases isNew
  rw [address_blockSetFree, address_blockSetPrevFree]
  exact address_blockLinkNext isLinked

theorem address_blockMarkAsUsed (result : control.blockMarkAsUsed block = some new) :
    new.address = control.address := by
  obtain ⟨_, _, isNew⟩ := Option.bind_eq_some_iff.mp result
  cases isNew
  rw [address_blockSetUsed, address_blockSetPrevUsed]

theorem address_removeFreeBlock (result : control.removeFreeBlock block index = some new) :
    new.address = control.address := by
  unfold removeFreeBlock at result
  simp only [Option.bind_eq_bind, Option.bind_eq_some_iff, Option.guard_eq_some', Option.pure_def,
    Option.some.injEq] at result
  obtain ⟨_, _, _, _, _, _, isNew⟩ := result
  subst isNew
  split
  · exact setHead_address
  · rfl

theorem address_insertFreeBlock (result : control.insertFreeBlock block index = some new) :
    new.address = control.address := by
  unfold insertFreeBlock at result
  simp only [Option.bind_eq_bind, Option.bind_eq_some_iff, Option.guard_eq_some', Option.pure_def,
    Option.some.injEq] at result
  obtain ⟨_, _, _, _, _, _, _, _, isNew⟩ := result
  subst isNew
  dsimp only
  rw [address_setField, address_setField, address_setField]

theorem address_blockRemove (result : control.blockRemove block = some new) :
    new.address = control.address := by
  obtain ⟨_, _, removed⟩ := Option.bind_eq_some_iff.mp result
  exact address_removeFreeBlock removed

theorem address_blockInsert (result : control.blockInsert block = some new) :
    new.address = control.address := by
  obtain ⟨_, _, inserted⟩ := Option.bind_eq_some_iff.mp result
  exact address_insertFreeBlock inserted

theorem address_blockSplit (result : control.blockSplit block size = some (new, next)) :
    new.address = control.address := by
  unfold blockSplit at result
  simp only [Option.bind_eq_bind, Option.bind_eq_some_iff, Option.guard_eq_some', Option.pure_def,
    Option.some.injEq, Prod.mk.injEq] at result
  obtain ⟨_, _, _, _, _, _, _, marked, isNew, _⟩ := result
  subst isNew
  have isMarked := address_blockMarkAsFree marked
  rwa [address_blockSetSize, address_blockSetSize] at isMarked

theorem address_blockAbsorb (result : control.blockAbsorb block next = some new) :
    new.address = control.address := by
  unfold blockAbsorb at result
  simp only [Option.bind_eq_bind, Option.bind_eq_some_iff, Option.guard_eq_some', Option.pure_def,
    Option.some.injEq, Prod.exists] at result
  obtain ⟨_, _, _, _, linked, isNew⟩ := result
  subst isNew
  have isLinked := address_blockLinkNext linked
  rwa [address_setField] at isLinked

theorem address_blockMergePrev (result : control.blockMergePrev block = some (new, next)) :
    new.address = control.address := by
  unfold blockMergePrev at result
  split at result
  · simp only [Option.bind_eq_bind, Option.bind_eq_some_iff, Option.guard_eq_some', Option.pure_def,
      Option.some.injEq, Prod.mk.injEq] at result
    obtain ⟨_, _, _, _, _, removed, _, absorbed, isNew, _⟩ := result
    subst isNew
    exact (address_blockAbsorb absorbed).trans (address_blockRemove removed)
  · cases result
    rfl

theorem address_blockMergeNext (result : control.blockMergeNext block = some new) :
    new.address = control.address := by
  unfold blockMergeNext at result
  simp only [Option.bind_eq_bind, Option.bind_eq_some_iff, Option.guard_eq_some'] at result
  obtain ⟨_, _, _, _, result⟩ := result
  split at result
  · simp only [Option.bind_eq_some_iff, Option.guard_eq_some'] at result
    obtain ⟨_, _, _, removed, absorbed⟩ := result
    exact (address_blockAbsorb absorbed).trans (address_blockRemove removed)
  · cases result
    rfl

theorem address_blockTrimFree (result : control.blockTrimFree block size = some new) :
    new.address = control.address := by
  unfold blockTrimFree at result
  simp only [Option.bind_eq_bind, Option.bind_eq_some_iff, Option.guard_eq_some'] at result
  obtain ⟨_, _, result⟩ := result
  split at result
  · simp only [Option.bind_eq_some_iff, Prod.exists] at result
    obtain ⟨_, _, isSplit, _, _, linked, inserted⟩ := result
    have isInserted := address_blockInsert inserted
    rw [address_blockSetPrevFree] at isInserted
    exact isInserted.trans ((address_blockLinkNext linked).trans (address_blockSplit isSplit))
  · cases result
    rfl

theorem address_blockLocateFree (result : control.blockLocateFree size = some (new, next)) :
    new.address = control.address := by
  unfold blockLocateFree at result
  split at result
  · simp only [Option.bind_eq_bind, Option.bind_eq_some_iff] at result
    obtain ⟨_, _, _, _, result⟩ := result
    split at result
    · simp only [Option.bind_eq_some_iff, Option.pure_def, Option.some.injEq,
        Prod.mk.injEq] at result
      obtain ⟨_, _, _, removed, isNew, _⟩ := result
      subst isNew
      exact address_removeFreeBlock removed
    · cases result
      rfl
  · cases result
    rfl

theorem address_blockPrepareUsed (result : control.blockPrepareUsed block size = some (new, next)) :
    new.address = control.address := by
  unfold blockPrepareUsed at result
  split at result
  · simp only [Option.bind_eq_bind, Option.bind_eq_some_iff, Option.pure_def, Option.some.injEq,
      Prod.mk.injEq] at result
    obtain ⟨_, trimmed, _, marked, isNew, _⟩ := result
    subst isNew
    exact (address_blockMarkAsUsed marked).trans (address_blockTrimFree trimmed)
  · cases result
    rfl

theorem address_tlsfMalloc (result : control.tlsfMalloc size = some (new, next)) :
    new.address = control.address := by
  unfold tlsfMalloc at result
  simp only [Option.bind_eq_bind, Option.bind_eq_some_iff, Prod.exists] at result
  obtain ⟨_, _, located, prepared⟩ := result
  exact (address_blockPrepareUsed prepared).trans (address_blockLocateFree located)

theorem address_tlsfFree (result : control.tlsfFree block = some new) :
    new.address = control.address := by
  unfold tlsfFree at result
  split at result
  · simp only [Option.bind_eq_bind, Option.bind_eq_some_iff, Option.guard_eq_some',
      Prod.exists] at result
    obtain ⟨_, _, _, marked, _, _, joined, _, merged, inserted⟩ := result
    exact (address_blockInsert inserted).trans ((address_blockMergeNext merged).trans
      ((address_blockMergePrev joined).trans (address_blockMarkAsFree marked)))
  · cases result
    rfl

theorem address_tlsfAddPool {mem bytes : Nat} {pool : Nat}
    (result : control.tlsfAddPool mem bytes = some (new, pool)) :
    new.address = control.address := by
  unfold tlsfAddPool at result
  dsimp only at result
  split at result
  · cases result
    rfl
  · split at result
    · cases result
      rfl
    · simp only [Option.bind_eq_bind, Option.bind_eq_some_iff, Option.pure_def, Option.some.injEq,
        Prod.mk.injEq, Prod.exists] at result
      obtain ⟨_, inserted, _, _, linked, isNew, _⟩ := result
      subst isNew
      have isInserted := address_blockInsert inserted
      rw [address_blockSetPrevUsed, address_blockSetFree, address_blockSetSize] at isInserted
      rw [address_blockSetPrevFree, address_blockSetUsed, address_blockSetSize]
      exact (address_blockLinkNext linked).trans isInserted

end Control

namespace State

variable {state final : State} {pieces before after : List Piece} {piece : Piece}
  {lists : Nat × Nat → List Nat} {memory : Memory} {mem bytes : Nat} {control : Control}

/-! ## What the invariant says -/

/-- The blocks tile the pools up to their sentinels, the flags and the links agree with them, the
lists and the bitmaps agree with the free blocks, and the held blocks are apart, aligned and
large enough. -/
structure Sound (state : State) (pieces : List Piece) (lists : Nat × Nat → List Nat) : Prop where
  tiles : Pooled 8 state.pools pieces
  header : ∀ piece ∈ pieces, state.control.blockSize piece.ptr = piece.len ∧
    state.control.blockIsFree piece.ptr = piece.free
  previous : ∀ before piece next after, pieces = before ++ piece :: next :: after →
    state.control.blockIsPrevFree next.ptr = piece.free ∧
      (piece.free = true → state.control.blockPrev next.ptr = piece.ptr)
  coalesced : Coalesced pieces
  listed : ∀ index node, node ∈ lists index ↔ ∃ piece ∈ pieces, piece.ptr = node ∧
    piece.free = true ∧ mappingInsert .bits64 piece.len = some index
  linked : ∀ index, state.control.blocks index = (lists index).headD state.control.address ∧
    DoublyLinked state.control.address (state.control.field · .nextFree)
      (state.control.field · .prevFree) state.control.address (lists index) ∧ (lists index).Nodup
  second : ∀ fl sl, (state.control.slBitmap fl).getLsbD sl = true ↔ lists (fl, sl) ≠ []
  first : ∀ fl < 32, state.control.flBitmap.getLsbD fl = true ↔ ∃ sl, lists (fl, sl) ≠ []
  checked : ∀ fuel > pieces.length, state.control.tlsfCheck fuel = some 0 ∧
    ∀ pool ∈ state.pools, state.control.tlsfCheckPool fuel (pool.1 + 8) = some 0
  held : ∀ used ∈ state.live, blockToPtr used.1 % 8 = 0 ∧
    used.2 ≤ state.control.blockSize used.1 ∧ state.control.blockIsFree used.1 = false
  apart : state.live.Pairwise fun left right => Library.Apart (blockToPtr left.1)
    (state.control.blockSize left.1) (blockToPtr right.1) (state.control.blockSize right.1)

theorem Kept.sound (kept : state.Kept pieces lists) : state.Sound pieces lists := by
  have rep := kept.rep
  have classes : ∀ length index, mappingInsert .bits64 length = some index ↔
      classOf length = index := by
    intro length index
    rw [mappingInsert_eq, Option.some.injEq]
    rfl
  constructor
  · exact rep.laid.pooled
  · exact fun piece member => ⟨rep.blockSize member, rep.blockIsFree member⟩
  · intro before piece next after isSplit
    subst isSplit
    refine ⟨?_, rep.blockPrev⟩
    have shifted := rep
    rw [show before ++ piece :: next :: after = (before ++ [piece]) ++ next :: after by simp]
      at shifted
    rw [shifted.blockIsPrevFree, endFree_concat]
  · exact kept.coalesced
  · intro index node
    rw [rep.listed]
    simp only [List.not_mem_nil, not_false_eq_true, true_and, classes]
  · exact fun index => ⟨rep.segregated.head index, rep.segregated.linked index,
      rep.segregated.nodup index⟩
  · exact rep.marked.second
  · intro fl small
    rw [rep.marked.first fl small, Ne, word_eq_zero_iff, not_forall]
    simp only [Bool.not_eq_false, rep.marked.second]
  · exact fun fuel enough => ⟨tlsfCheck_eq rep kept.coalesced enough,
      fun pool isPool => tlsfCheckPool_eq rep isPool enough⟩
  · intro used held
    obtain ⟨before, piece, after, isSplit, isPtr, isUsed, large, _⟩ := kept.split held
    subst isSplit
    have member : piece ∈ before ++ piece :: after := by simp
    have bounds := rep.laid.piece_bounds member
    rw [← isPtr, rep.blockSize member, rep.blockIsFree member, blockToPtr_eq]
    exact ⟨by omega, large, isUsed⟩
  · have nodup := kept.nodup
    unfold handed at nodup
    rw [List.map_append] at nodup
    have liveNodup := (List.nodup_append.mp nodup).1
    rw [List.nodup_iff_pairwise_ne, List.pairwise_map] at liveNodup
    refine liveNodup.imp_of_mem ?_
    intro left right isLeft isRight different
    obtain ⟨before, piece, after, isSplit, isPtr, _⟩ := kept.split isLeft
    obtain ⟨_, other, _, isAlso, otherPtr, _⟩ := kept.split isRight
    have member : piece ∈ pieces := by
      rw [isSplit]
      simp
    have otherMember : other ∈ pieces := by
      rw [isAlso]
      simp
    have notSame : piece ≠ other := by
      intro same
      rw [← isPtr, ← otherPtr, same] at different
      exact different rfl
    have apart := rep.laid.different_tiles member otherMember notSame
    rw [← isPtr, ← otherPtr, rep.blockSize member, rep.blockSize otherMember]
    unfold Extent.Apart Library.Apart tile at apart
    unfold Library.Apart blockToPtr blockStartOffset
    dsimp only [Field.offset] at apart ⊢
    omega

/-! ## A pool from the start -/

/-- The heap after `tlsf_create_with_pool`. -/
def withPool (control : Control) (mem bytes : Nat) : State :=
  ⟨control, [poolOf (mem + tlsfSize) (poolBytes .bits64 (subWord .bits64 bytes tlsfSize))], []⟩

/-- The memory for the control structure and the pool. -/
structure Placed (mem bytes : Nat) : Prop where
  aligned : mem % 8 = 0
  nonzero : 0 < mem
  inRange : mem + bytes ≤ 2 ^ 64
  accepted : Accepted .bits64 (subWord .bits64 bytes tlsfSize)

theorem Placed.tlsfSize_le (placed : Placed mem bytes) : tlsfSize ≤ bytes := by
  obtain ⟨_, nonzero, inRange, accepted⟩ := placed
  have isSize : tlsfSize = 6536 := rfl
  have isMax : blockSizeMax .bits64 = 2 ^ 32 := rfl
  have wraps : subWord .bits64 bytes tlsfSize = (bytes + 2 ^ 64 - tlsfSize) % 2 ^ 64 := rfl
  by_contra tooSmall
  obtain ⟨_, _, _, close⟩ := poolBytes_spec accepted (by omega)
  have most := accepted.2
  omega

theorem Placed.bytes_eq (placed : Placed mem bytes) :
    subWord .bits64 bytes tlsfSize = bytes - tlsfSize := by
  have inRange := placed.inRange
  have nonzero := placed.nonzero
  exact subWord_of_le placed.tlsfSize_le (by omega)

theorem Placed.fits (placed : Placed mem bytes)
    (notMax : poolBytes .bits64 (subWord .bits64 bytes tlsfSize) ≠ blockSizeMax .bits64) :
    PoolFits [] mem (mem + tlsfSize) (poolBytes .bits64 (subWord .bits64 bytes tlsfSize)) := by
  have large := placed.tlsfSize_le
  have isBytes := placed.bytes_eq
  obtain ⟨aligned, nonzero, inRange, accepted⟩ := placed
  have isSize : tlsfSize = 6536 := rfl
  obtain ⟨sizeAligned, least, fits, _⟩ := poolBytes_spec accepted (by omega)
  have most := accepted.2
  have isMax : blockSizeMax .bits64 = 2 ^ 32 := rfl
  exact
    { aligned := by omega
      nonzero := by omega
      sizeAligned := sizeAligned
      least := least
      small := by omega
      inRange := by omega
      null := .inr (.inr (.inl (show mem + 32 ≤ mem + tlsfSize by omega)))
      apart := nofun }

/-- The heap starts as one free block in front of the sentinel. -/
theorem withPool_spec (placed : Placed mem bytes)
    (notMax : poolBytes .bits64 (subWord .bits64 bytes tlsfSize) ≠ blockSizeMax .bits64)
    (memory : Memory) :
    ∃ control lists, tlsfCreateWithPool memory mem bytes = some (control, mem + tlsfSize) ∧
      control.address = mem ∧ (withPool control mem bytes).Kept
        [poolBlock (mem + tlsfSize) (poolBytes .bits64 (subWord .bits64 bytes tlsfSize)),
          sentinel (mem + tlsfSize + poolBytes .bits64 (subWord .bits64 bytes tlsfSize))]
        lists := by
  have large := placed.tlsfSize_le
  have fits := placed.fits notMax
  have least := fits.least
  have nonzero := fits.nonzero
  have inRange := placed.inRange
  have isSize : tlsfSize = 6536 := rfl
  have rep := rep_construct memory placed.aligned placed.nonzero (by omega)
  have kept : State.Kept ⟨construct memory mem, [], []⟩ [] (fun _ => []) :=
    ⟨rep, .nil, ⟨.nil, nofun⟩, nofun, nofun⟩
  obtain ⟨new, newLists, isAdded, newRep, _⟩ := tlsfAddPool_spec placed.accepted fits rep
  have newKept := kept.pooled (show mem + tlsfSize ≠ 0 by omega) (by omega) newRep
  have isAddress := address_tlsfAddPool isAdded
  have isCreated : tlsfCreate memory mem = some (construct memory mem) := by
    unfold tlsfCreate
    rw [alignSize_bits64, if_neg (not_not.mpr placed.aligned)]
  unfold State.pooled at newKept
  rw [if_neg (by omega)] at newKept
  refine ⟨new, newLists, ?_, isAddress, newKept⟩
  unfold tlsfCreateWithPool
  rw [isCreated, some_bind]
  exact isAdded

/-- Blocks are only handed out by `tlsf_malloc`, for a size whose class is in the tables, and given
back by `tlsf_free`. Their holders write to them. -/
def MallocFree (_ : State) : Event → Prop
  | .malloc size => adjustRequestSize .bits64 size 8 ≤ largestRequest .bits64
  | .free _ => True
  | .write _ _ => True
  | _ => False

theorem MallocFree.meets {event : Event} (allowed : state.MallocFree event) :
    state.Meets event := by
  cases event with
  | malloc size => exact allowed
  | free ptr => trivial
  | write place byte => trivial
  | _ => exact allowed.elim

/-- In every state after `tlsf_create_with_pool`, the heap is sound and no call fails. -/
theorem heap_sound (placed : Placed mem bytes)
    (small : poolBytes .bits64 (subWord .bits64 bytes tlsfSize) < blockSizeMax .bits64)
    (memory : Memory) :
    ∃ control, tlsfCreateWithPool memory mem bytes = some (control, mem + tlsfSize) ∧
      ∀ state, heap.Leads State.MallocFree (withPool control mem bytes) state →
        (∃ pieces lists, state.Sound pieces lists) ∧ heap.Safe State.MallocFree state := by
  obtain ⟨control, lists, isCreated, _, kept⟩ := withPool_spec placed (Nat.ne_of_lt small) memory
  refine ⟨control, isCreated, ?_⟩
  intro state leads
  have inv : state.Inv := by
    refine leads.invariant ?_ ⟨_, lists, kept⟩
    intro state event next inv enabled allowed result
    obtain ⟨expected, isExpected, newInv⟩ := step_spec inv enabled allowed.meets
    have same : next = expected := Option.some.inj (result.symm.trans isExpected)
    exact same ▸ newInv
  obtain ⟨pieces, lists, kept⟩ := id inv
  refine ⟨⟨pieces, lists, kept.sound⟩, ?_⟩
  intro event enabled allowed isNone
  obtain ⟨next, result, _⟩ := step_spec inv enabled allowed.meets
  have both := result.symm.trans isNone
  cases both

theorem heap_sound_page :
    ∃ control, tlsfCreateWithPool (fun _ => 0) 4096 8192 = some (control, 4096 + tlsfSize) ∧
      ∀ state, heap.Leads State.MallocFree (withPool control 4096 8192) state →
        (∃ pieces lists, state.Sound pieces lists) ∧ heap.Safe State.MallocFree state :=
  heap_sound ⟨by decide, by decide, by decide, by decide⟩ (by decide) fun _ => 0

/-! ## All blocks are freed -/

/-- One free block spans the pool. It is on the one list for its size, and only its two bits are
set. -/
structure Initial (control : Control) (block size : Nat) : Prop where
  header : control.field block .size = size + 1
  sentinel : control.field (block + (8 + size)) .size = 2
  link : control.field (block + (8 + size)) .prevPhysBlock = block
  blocks : ∀ index, control.blocks index =
    if mappingInsert .bits64 size = some index then block else control.address
  nextFree : control.field block .nextFree = control.address
  prevFree : control.field block .prevFree = control.address
  second : ∀ fl sl, (control.slBitmap fl).getLsbD sl = true ↔
    mappingInsert .bits64 size = some (fl, sl)
  first : ∀ fl, control.flBitmap.getLsbD fl = true ↔
    ∃ sl, mappingInsert .bits64 size = some (fl, sl)

/-- A heap of one free block is in its initial state. -/
theorem initial_of_single {pools : List (Nat × Nat)} {block size : Nat}
    (rep : Rep pools control [⟨block, size, true⟩, sentinel (block + (8 + size))] lists []) :
    Initial control block size := by
  have isListed : ∀ index node, node ∈ lists index ↔
      node = block ∧ mappingInsert .bits64 size = some index := by
    intro index node
    rw [rep.listed, mappingInsert_eq, Option.some.injEq]
    constructor
    · rintro ⟨piece, member, isPtr, isFree, _, isClass⟩
      rcases List.mem_cons.mp member with isBlock | isSentinel
      · subst isBlock
        exact ⟨isPtr.symm, isClass⟩
      · rw [List.mem_singleton.mp isSentinel] at isFree
        cases isFree
    · rintro ⟨isBlock, isClass⟩
      exact ⟨_, List.mem_cons_self, isBlock.symm, rfl, List.not_mem_nil, isClass⟩
  have isList : ∀ index, lists index = if mappingInsert .bits64 size = some index then [block]
      else [] := by
    intro index
    split
    · next isClass =>
        have member := (isListed index block).mpr ⟨rfl, isClass⟩
        refine List.perm_singleton.mp ((List.perm_ext_iff_of_nodup (rep.segregated.nodup index)
          (List.nodup_singleton block)).mpr ?_)
        intro node
        rw [isListed, List.mem_singleton]
        exact and_iff_left isClass
    · next notClass =>
        refine List.eq_nil_iff_forall_not_mem.mpr ?_
        intro node member
        exact notClass ((isListed index node).mp member).2
  obtain ⟨own, cls⟩ : ∃ index, mappingInsert .bits64 size = some index := ⟨_, mappingInsert_eq _ _⟩
  have ownLinked := rep.segregated.linked own
  rw [isList, if_pos cls] at ownLinked
  constructor
  · exact rep.tagged.1
  · exact rep.tagged.2.2.1
  · have split : Rep pools control
        ([] ++ ⟨block, size, true⟩ :: sentinel (block + (8 + size)) :: []) lists [] := rep
    exact split.blockPrev rfl
  · intro index
    rw [rep.segregated.head, isList]
    split <;> rfl
  · exact ownLinked.2.1
  · exact ownLinked.1
  · intro fl sl
    rw [rep.marked.second, isList]
    split
    · next isClass => exact iff_of_true (List.cons_ne_nil _ _) isClass
    · next notClass => exact iff_of_false (not_not.mpr rfl) notClass
  · intro fl
    by_cases small : fl < 32
    · rw [rep.marked.first fl small, Ne, word_eq_zero_iff, not_forall]
      simp only [Bool.not_eq_false, rep.marked.second, isList]
      refine exists_congr fun sl => ?_
      split
      · next isClass => exact iff_of_true (List.cons_ne_nil _ _) isClass
      · next notClass => exact iff_of_false (not_not.mpr rfl) notClass
    · have noBit : control.flBitmap.getLsbD fl = false := BitVec.getLsbD_of_ge _ _ (by omega)
      rw [noBit]
      refine iff_of_false Bool.false_ne_true ?_
      rintro ⟨sl, isClass⟩
      have inTables := (rep.indexed List.mem_cons_self).1.1
      dsimp only at inTables
      rw [mappingInsert_eq, Option.some.injEq] at isClass
      have isLevel : (classOf size).1 = fl := congrArg Prod.fst isClass
      rw [isLevel] at inTables
      have bound : flIndexCount .bits64 = 25 := by decide
      omega

/-- If no block is held, the pool is one free block. -/
theorem Kept.restored (kept : state.Kept pieces lists) {pool : Nat × Nat}
    (onePool : state.pools = [pool]) (noneHeld : state.live = []) :
    ∃ size, pool.2 = pool.1 + (8 + size) ∧ Initial state.control pool.1 size := by
  have pooled := kept.rep.laid.pooled
  rw [onePool] at pooled
  change Pooled 8 ([] ++ (pool.1, pool.2) :: []) pieces at pooled
  obtain ⟨before, group, after, isPieces, pooledBefore, tiles, noSentinel, pooledAfter⟩ :=
    pooled.split
  have isBefore : before = [] := by
    cases before with
    | nil => rfl
    | cons => exact pooledBefore.elim
  have isAfter : after = [] := by
    cases after with
    | nil => rfl
    | cons => exact pooledAfter.elim
  obtain ⟨size, isGroup⟩ := kept.unused (by rw [onePool]; exact List.mem_singleton_self _)
    (by rw [noneHeld]; nofun) isPieces tiles noSentinel
  subst isGroup
  have isStop : pool.2 = pool.1 + (8 + size) := tiles.2.symm
  have rep := kept.rep
  rw [isPieces, isBefore, isAfter, isStop] at rep
  exact ⟨size, isStop, initial_of_single rep⟩

/-- The held blocks can be freed in any order. -/
theorem Inv.frees (inv : state.Inv) (order : List Nat)
    (isOrder : order.Perm (state.live.map fun used => blockToPtr used.1)) :
    ∃ final, heap.Runs (fun _ _ => True) state (order.map .free) final ∧ final.Inv ∧
      final.live = [] ∧ final.pools = state.pools ∧
      final.control.address = state.control.address := by
  induction order generalizing state with
  | nil =>
      have noneHeld := List.map_eq_nil_iff.mp isOrder.nil_eq.symm
      exact ⟨state, .nil, inv, noneHeld, rfl, rfl⟩
  | cons ptr rest induction =>
      obtain ⟨used, held, isPtr⟩ := List.mem_map.mp (isOrder.mem_iff.mp List.mem_cons_self)
      have enabled : ptr = 0 ∨ state.Holds ptr := .inr ⟨used, held, isPtr.symm⟩
      obtain ⟨control, isFreed, newInv⟩ := free_spec inv enabled
      have restOrder : rest.Perm ((state.live.eraseP fun used => used.1 = blockFromPtr ptr).map
          fun used => blockToPtr used.1) := by
        have erased : (state.live.eraseP fun used => used.1 = blockFromPtr ptr).map
            (fun used => blockToPtr used.1) =
              (state.live.map fun used => blockToPtr used.1).erase ptr := by
          rw [List.erase_eq_eraseP', List.eraseP_map]
          congr 2
          funext other
          have isBlock : blockFromPtr (blockToPtr used.1) = used.1 := Nat.add_sub_cancel _ _
          rw [← isPtr, isBlock, Bool.eq_iff_iff, decide_eq_true_eq, Function.comp_apply, beq_iff_eq]
          exact Nat.add_right_cancel_iff.symm
        rw [erased]
        exact (List.cons_perm_iff_perm_erase.mp isOrder).2
      obtain ⟨final, runs, finalInv, noneHeld, samePools, sameAddress⟩ := induction newInv restOrder
      refine ⟨final, ?_, finalInv, noneHeld, samePools,
        sameAddress.trans (address_tlsfFree isFreed)⟩
      refine .cons enabled trivial ?_ runs
      change (state.control.tlsfFree ptr >>= _) = _
      rw [isFreed]
      rfl

/-- After some calls of `tlsf_malloc` the held blocks are freed in any order, and the heap is as it
was in the beginning. -/
def FreesRestore (memory : Memory) (mem bytes : Nat) : Prop :=
  ∃ control size, tlsfCreateWithPool memory mem bytes = some (control, mem + tlsfSize) ∧
    size = poolBytes .bits64 (subWord .bits64 bytes tlsfSize) ∧
    Initial control (mem + tlsfSize - 8) size ∧
    ∀ (sizes : List Nat) (state : State), heap.Runs (fun _ _ => True) (withPool control mem bytes)
      (sizes.map .malloc) state →
        ∀ order : List Nat, order.Perm (state.live.map fun used => blockToPtr used.1) →
          ∃ final, heap.Runs (fun _ _ => True) state (order.map .free) final ∧
            final.live = [] ∧ Initial final.control (mem + tlsfSize - 8) size ∧
            final.control.address = control.address

/-- A call of `tlsf_malloc` that does not fail. -/
theorem malloc_served (inv : state.Inv) {size : Nat} {next : State}
    (result : state.step (.malloc size) = some next) :
    next.Inv ∧ next.pools = state.pools ∧ next.control.address = state.control.address := by
  obtain ⟨⟨control, ptr⟩, isServed, isNext⟩ := Option.bind_eq_some_iff.mp result
  have inTables : adjustRequestSize .bits64 size 8 ≤ largestRequest .bits64 := by
    by_contra outside
    rw [malloc_outside (Nat.lt_of_not_le outside)] at isServed
    cases isServed
  obtain ⟨expected, moved, isExpected, _, newInv⟩ := malloc_spec inv inTables
  cases isServed.symm.trans isExpected
  cases isNext
  exact ⟨newInv, rfl, address_tlsfMalloc isServed⟩

theorem mallocs_served (inv : state.Inv) {sizes : List Nat}
    (runs : heap.Runs (fun _ _ => True) state (sizes.map .malloc) final) :
    final.Inv ∧ final.pools = state.pools ∧ final.control.address = state.control.address := by
  induction sizes generalizing state with
  | nil =>
      cases runs
      exact ⟨inv, rfl, rfl⟩
  | cons size rest induction =>
      cases runs with
      | cons _ _ result restRuns =>
          obtain ⟨newInv, samePools, sameAddress⟩ := malloc_served inv result
          obtain ⟨finalInv, finalPools, finalAddress⟩ := induction newInv restRuns
          exact ⟨finalInv, finalPools.trans samePools, finalAddress.trans sameAddress⟩

/-- The largest pool that is accepted has no list for its block. -/
theorem tlsfAddPool_largest {pool : Nat} (aligned : pool % 8 = 0) (nonzero : 8 ≤ pool)
    (inRange : pool < 2 ^ 64) (isMax : poolBytes .bits64 bytes = 2 ^ 32) :
    control.tlsfAddPool pool bytes = none := by
  have accepted : Accepted .bits64 bytes := by
    unfold Accepted
    rw [isMax]
    decide
  have isBlock : subWord .bits64 pool 8 = pool - 8 := subWord_of_le nonzero inRange
  have isSize : (control.setField (pool - 8) .size (2 ^ 32 + 1)).blockSize (pool - 8) = 2 ^ 32 := by
    rw [Control.blockSize, field_setField (by omega) (by omega) (by decide), if_pos rfl]
    decide
  have outside : ∀ index, mappingInsert .bits64 (2 ^ 32) = some index → ¬ Indexed index := by
    intro index isIndex isIndexed
    have inTables : InTables .bits64 (mappingInsert .bits64 (2 ^ 32)) :=
      ⟨index.1, index.2, isIndex, isIndexed.1, isIndexed.2⟩
    exact absurd (inTables_mappingInsert.mp inTables) (by decide)
  unfold tlsfAddPool
  dsimp only
  rw [alignSize_bits64, if_neg (not_not.mpr aligned), if_neg (not_not.mpr accepted),
    blockHeaderOverhead_bits64, isBlock, isMax, setters_headed (by omega) (by decide) (by decide)]
  have isNone : (control.setField (pool - 8) .size (2 ^ 32 + 1)).blockInsert (pool - 8) = none := by
    unfold blockInsert
    rw [isSize]
    cases isIndex : mappingInsert .bits64 (2 ^ 32) with
    | none => rfl
    | some index =>
        rw [some_bind, insertFreeBlock, guard, if_neg (outside index isIndex)]
        rfl
  rw [isNone]
  rfl

/-- All orders of freeing lead to the initial state, unless the pool is the largest one that is
accepted. -/
theorem frees_restore_iff (placed : Placed mem bytes) (memory : Memory) :
    FreesRestore memory mem bytes ↔
      poolBytes .bits64 (subWord .bits64 bytes tlsfSize) ≠ blockSizeMax .bits64 := by
  have isSize : tlsfSize = 6536 := rfl
  have large := placed.tlsfSize_le
  have aligned := placed.aligned
  have inRange := placed.inRange
  have nonzero := placed.nonzero
  have isBytes := placed.bytes_eq
  obtain ⟨_, _, room, _⟩ := poolBytes_spec placed.accepted (by omega)
  constructor
  · rintro ⟨control, size, isCreated, _⟩ isMax
    unfold tlsfCreateWithPool tlsfCreate at isCreated
    rw [alignSize_bits64, if_neg (not_not.mpr aligned), some_bind,
      tlsfAddPool_largest (by omega) (by omega) (by omega) isMax] at isCreated
    cases isCreated
  · intro notMax
    obtain ⟨control, lists, isCreated, isAddress, kept⟩ := withPool_spec placed notMax memory
    have isStop : mem + tlsfSize - 8 + (8 + poolBytes .bits64 (subWord .bits64 bytes tlsfSize)) =
        mem + tlsfSize + poolBytes .bits64 (subWord .bits64 bytes tlsfSize) := by omega
    have isStart : Initial control (mem + tlsfSize - 8)
        (poolBytes .bits64 (subWord .bits64 bytes tlsfSize)) := by
      have rep : Rep (withPool control mem bytes).pools control
          [⟨mem + tlsfSize - 8, poolBytes .bits64 (subWord .bits64 bytes tlsfSize), true⟩,
            sentinel (mem + tlsfSize + poolBytes .bits64 (subWord .bits64 bytes tlsfSize))] lists
          [] := kept.rep
      rw [← isStop] at rep
      exact initial_of_single rep
    refine ⟨control, _, isCreated, rfl, isStart, ?_⟩
    intro sizes state runs order isOrder
    obtain ⟨inv, samePools, sameAddress⟩ := mallocs_served ⟨_, lists, kept⟩ runs
    obtain ⟨final, frees, ⟨pieces, finalLists, finalKept⟩, noneHeld, finalPools, finalAddress⟩ :=
      inv.frees order isOrder
    obtain ⟨size, isStop, isInitial⟩ := finalKept.restored (finalPools.trans samePools) noneHeld
    refine ⟨final, frees, noneHeld, ?_, finalAddress.trans sameAddress⟩
    unfold poolOf at isStop isInitial
    dsimp only at isStop isInitial
    have sameSize : size = poolBytes .bits64 (subWord .bits64 bytes tlsfSize) := by omega
    exact sameSize ▸ isInitial

theorem frees_restore_page : FreesRestore (fun _ => 0) 4096 8192 ↔
    poolBytes .bits64 (subWord .bits64 8192 tlsfSize) ≠ blockSizeMax .bits64 :=
  frees_restore_iff ⟨by decide, by decide, by decide, by decide⟩ fun _ => 0

/-- A pool of `block_size_max` bytes is accepted and not added. -/
theorem frees_restore_fails : Placed 4096 (2 ^ 32 + 16 + tlsfSize) ∧
    ¬ FreesRestore (fun _ => 0) 4096 (2 ^ 32 + 16 + tlsfSize) := by
  have placed : Placed 4096 (2 ^ 32 + 16 + tlsfSize) :=
    ⟨by decide, by decide, by decide, by decide⟩
  have isMax : poolBytes .bits64 (subWord .bits64 (2 ^ 32 + 16 + tlsfSize) tlsfSize) =
      blockSizeMax .bits64 := by decide
  exact ⟨placed, fun restores => (frees_restore_iff placed _).mp restores isMax⟩

end State

end MallocSurvey.Tlsf
