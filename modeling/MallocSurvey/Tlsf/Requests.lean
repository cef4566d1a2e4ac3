import MallocSurvey.Tlsf.Calls

/-! # Which requests the allocator serves -/

namespace MallocSurvey.Tlsf

open Library Control

namespace Control

variable {control split : Control} {block len remaining : Nat}

/-- A block that is trimmed to no bytes would be a sentinel. -/
theorem blockSplit_zero (aligned : block % 8 = 0) (isSize : control.blockSize block = len)
    (lenAligned : len % 8 = 0) (least : 32 ≤ len) (fits : block + len + 24 ≤ 2 ^ 64)
    (isSplit : control.blockSplit block 0 = some (split, remaining)) :
    split.blockSize block = 0 := by
  have isRemaining : offsetToBlock (blockToPtr block) (subWord .bits64 0 8) = block + 8 :=
    offsetToBlock_end (by omega)
  have isRest : subWord .bits64 len (addWord .bits64 0 8) = len - 8 :=
    subWord_of_le (show 8 ≤ len by omega) (by omega)
  unfold blockSplit at isSplit
  dsimp only at isSplit
  rw [blockHeaderOverhead_bits64, isRemaining, isSize, isRest] at isSplit
  simp only [Option.bind_eq_bind, Option.bind_eq_some_iff, Option.guard_eq_some', Option.pure_def,
    Option.some.injEq, Prod.mk.injEq] at isSplit
  obtain ⟨_, _, _, _, _, _, marked, isMarked, isResult, _⟩ := isSplit
  subst isResult
  have restAligned : (block + 8) % 8 = 0 := by omega
  have small := Nat.mod_lt (control.field (block + 8) .size) (show 0 < 4 by decide)
  have noBits : ∀ flags < 4, 0 ||| flags < 4 := fun flags small => by rwa [Nat.zero_or]
  -- the sizes that are written
  have restSize : ((control.blockSetSize (block + 8) (len - 8)).blockSetSize block 0).blockSize
      (block + 8) = len - 8 := by
    have stays : ((control.blockSetSize (block + 8) (len - 8)).blockSetSize block 0).field
        (block + 8) .size = (control.blockSetSize (block + 8) (len - 8)).field (block + 8) .size :=
      field_setField_of_ne aligned restAligned (by simp only [Field.offset]; omega)
    rw [Control.blockSize, stays, size_blockSetSize restAligned (by omega),
      len_or_small (by omega) small]
    omega
  have ownSize : ((control.blockSetSize (block + 8) (len - 8)).blockSetSize block 0).blockSize
      block = 0 := by
    have flags := noBits _ (Nat.mod_lt
      ((control.blockSetSize (block + 8) (len - 8)).field block .size) (by decide))
    rw [Control.blockSize, size_blockSetSize aligned (by decide)]
    omega
  generalize (control.blockSetSize (block + 8) (len - 8)).blockSetSize block 0 = sized at *
  unfold blockMarkAsFree at isMarked
  rw [blockLinkNext_cut restSize (by omega) (by omega), some_bind] at isMarked
  cases isMarked
  have nextAligned : (block + 8 + (8 + (len - 8))) % 8 = 0 := by omega
  rw [Control.blockSize, blockSetFree, field_setField_of_ne restAligned aligned
    (by simp only [Field.offset]; omega), blockSetPrevFree, field_setField_of_ne nextAligned aligned
    (by simp only [Field.offset]; omega), field_setField_of_ne nextAligned aligned
    (by simp only [Field.offset]; omega)]
  exact ownSize

theorem blockTrimFree_zero (aligned : block % 8 = 0) (isSize : control.blockSize block = len)
    (lenAligned : len % 8 = 0) (least : 32 ≤ len) (fits : block + len + 24 ≤ 2 ^ 64) :
    control.blockTrimFree block 0 = none := by
  have canSplit : control.blockCanSplit block 0 = true := by
    rw [blockCanSplit, isSize]
    exact decide_eq_true least
  unfold blockTrimFree
  by_cases isFree : control.blockIsFree block = true
  · rw [guard_bind isFree, if_pos canSplit]
    cases isSplit : control.blockSplit block 0 with
    | none => rfl
    | some result =>
        obtain ⟨split, remaining⟩ := result
        have isEmpty := blockSplit_zero aligned isSize lenAligned least fits isSplit
        have isLast : split.blockIsLast block = true := by
          rw [blockIsLast, isEmpty]
          rfl
        rw [some_bind]
        dsimp only
        rw [blockLinkNext, blockNext, guard, if_neg (not_not.mpr isLast)]
        rfl
  · rw [guard, if_neg isFree]
    rfl

theorem blockPrepareUsed_zero (nonzero : block ≠ 0) (aligned : block % 8 = 0)
    (isSize : control.blockSize block = len) (lenAligned : len % 8 = 0) (least : 32 ≤ len)
    (fits : block + len + 24 ≤ 2 ^ 64) : control.blockPrepareUsed block 0 = none := by
  unfold blockPrepareUsed
  rw [if_pos nonzero, blockTrimFree_zero aligned isSize lenAligned least fits]
  rfl

variable {pools : List (Nat × Nat)} {pieces : List Piece} {lists : Nat × Nat → List Nat}
  {power size : Nat}

/-- A rejected request that finds a block ends on a failed assertion. -/
theorem memalign_rejected (rep : Rep pools control pieces lists []) (bounded : power < 64)
    (rejected : adjustRequestSize .bits64 size 8 = 0)
    (searchable : Searchable (alignedSize (2 ^ power) size))
    (serves : ¬ NoneFits pieces (alignedSize (2 ^ power) size)) :
    control.tlsfMemalign (2 ^ power) size = none := by
  have least := searchable.least
  have isGapped : ¬ 2 ^ power ≤ 8 := by
    intro small
    unfold alignedSize at least
    rw [alignSize_bits64, if_pos small, rejected] at least
    omega
  have powerGe : 4 ≤ power := by
    by_contra below
    exact isGapped (Nat.pow_le_pow_right (show 0 < 2 by decide) (show power ≤ 3 by omega))
  have isSize : alignedSize (2 ^ power) size = sizeWithGap 0 (2 ^ power) := by
    unfold alignedSize
    rw [alignSize_bits64, if_neg isGapped, rejected]
  rw [isSize] at least
  obtain ⟨powerLt, room, _⟩ := sizeWithGap_spec powerGe bounded (Nat.zero_le _)
    (show sizeWithGap 0 (2 ^ power) ≠ 0 by omega)
  have powerLarge : 2 ^ 4 ≤ 2 ^ power := Nat.pow_le_pow_right (by decide) powerGe
  rcases blockLocateFree_spec rep searchable with ⟨_, noneFits⟩ |
    ⟨located, locatedLists, piece, member, isFree, holds, _, isLocated, locatedRep, _⟩
  · exact absurd noneFits serves
  · rw [isSize] at holds
    obtain ⟨before, after, isSplit⟩ := List.append_of_mem member
    subst isSplit
    obtain ⟨ptrAligned, nonzero, lenAligned, lenSmall, _, bounds⟩ := rep.laid.piece_bounds member
    obtain ⟨_, fits⟩ := bounds (by omega)
    have blockFits : piece.ptr + piece.len + 24 ≤ 2 ^ 64 := by omega
    have isLen := locatedRep.blockSize member
    have whole : located.blockPrepareUsed piece.ptr 0 = none :=
      blockPrepareUsed_zero (by omega) ptrAligned isLen lenAligned (by omega) blockFits
    obtain ⟨next, rest, isCons, _⟩ := rep.exists_next (show piece.len ≠ 0 by omega)
    subst isCons
    obtain ⟨empty, gapLe, gapAligned, _⟩ := alignedGap_spec powerGe powerLt
      (show (piece.ptr + 16) % 8 = 0 by omega) (by omega)
    unfold tlsfMemalign
    change (control.blockLocateFree (alignedSize (2 ^ power) size) >>= _) = _
    rw [isLocated, some_bind]
    dsimp only
    rw [if_pos (show piece.ptr ≠ 0 by omega), blockToPtr_eq, alignSize_bits64, rejected]
    by_cases isEmpty : alignedGap (piece.ptr + 16) (2 ^ power) = 0
    · rw [if_neg (not_not.mpr isEmpty)]
      exact whole
    · have gapLeast := empty.resolve_left isEmpty
      rw [if_pos isEmpty, sizeofHeader_bits64, guard_bind gapLeast]
      by_cases canSplit : alignedGap (piece.ptr + 16) (2 ^ power) + 32 ≤ piece.len
      · obtain ⟨cut, cutLists, isCut, cutRep, _⟩ :=
          blockTrimFreeLeading_spec locatedRep isFree gapAligned gapLeast canSplit
        have cutMember : cutOff piece (alignedGap (piece.ptr + 16) (2 ^ power) - 8) ∈
            before ++ shortened piece (alignedGap (piece.ptr + 16) (2 ^ power) - 8) ::
              cutOff piece (alignedGap (piece.ptr + 16) (2 ^ power) - 8) :: next :: rest := by simp
        have cutLen := cutRep.blockSize cutMember
        have isNone : cut.blockPrepareUsed
            (cutOff piece (alignedGap (piece.ptr + 16) (2 ^ power) - 8)).ptr 0 = none := by
          refine blockPrepareUsed_zero ?_ ?_ cutLen ?_ ?_ ?_
          all_goals
            unfold cutOff
            dsimp only
            omega
        rw [isCut, some_bind]
        exact isNone
      · have notSplit : ¬ located.blockCanSplit piece.ptr
            (alignedGap (piece.ptr + 16) (2 ^ power)) = true :=
          fun can => canSplit ((blockCanSplit_iff locatedRep (by omega)).mp can)
        rw [blockTrimFreeLeading, if_neg notSplit]
        exact whole

end Control

namespace State

variable {state : State} {event : Event} {ptr size power : Nat}

/-! ## Conditions -/

/-- The condition for `tlsf_memalign`. -/
def MemalignMeets (state : State) (align size : Nat) : Prop :=
  alignedSize align size ≤ largestRequest .bits64 ∧
    (adjustRequestSize .bits64 size 8 ≠ 0 ∨ alignedSize align size = 0 ∨
      NothingServes state.control (alignedSize align size))

/-- The requests that the allocator keeps its invariant for. -/
def Meets (state : State) : Event → Prop
  | .addPool _ bytes => poolBytes .bits64 bytes ≠ blockSizeMax .bits64
  | .malloc size => adjustRequestSize .bits64 size 8 ≤ largestRequest .bits64
  | .memalign align size => state.MemalignMeets align size
  | .realloc ptr size => state.ReallocMeets ptr size
  | _ => True

theorem init_inv (isInit : heap.Init state) : state.Inv := by
  obtain ⟨memory, mem, nonzero, fits, isCreated, noPools, noneLive⟩ := isInit
  have isSize : tlsfSize = 6536 := rfl
  unfold tlsfCreate at isCreated
  rw [alignSize_bits64] at isCreated
  split at isCreated
  · cases isCreated
  · next aligned =>
      cases state
      cases isCreated
      cases noPools
      cases noneLive
      refine ⟨[], fun _ => [], rep_construct memory (by omega) nonzero (by omega), .nil,
        ⟨.nil, nofun⟩, nofun, nofun⟩

/-- One step on a request that meets the condition. -/
theorem step_spec (inv : state.Inv) (enabled : state.Enabled event) (meets : state.Meets event) :
    ∃ next, state.step event = some next ∧ next.Inv := by
  cases event with
  | addPool mem bytes =>
      obtain ⟨control, pool, result, newInv⟩ := addPool_spec inv enabled meets
      exact ⟨_, by rw [step, result]; rfl, newInv⟩
  | removePool pool =>
      obtain ⟨control, result, newInv⟩ := removePool_spec inv enabled
      exact ⟨_, by rw [step, result]; rfl, newInv⟩
  | malloc size =>
      obtain ⟨control, ptr, result, _, newInv⟩ := malloc_spec inv meets
      exact ⟨_, by rw [step, result]; rfl, newInv⟩
  | memalign align size =>
      obtain ⟨power, bounded, isPower⟩ := enabled
      subst isPower
      obtain ⟨control, ptr, result, _, _, newInv⟩ := memalign_spec inv bounded meets.1 meets.2
      exact ⟨_, by rw [step, result]; rfl, newInv⟩
  | realloc ptr size =>
      obtain ⟨control, moved, result, reallocated⟩ := realloc_spec inv enabled meets
      exact ⟨_, by rw [step, result]; rfl, reallocated.inv⟩
  | free ptr =>
      obtain ⟨control, result, newInv⟩ := free_spec inv enabled
      exact ⟨_, by rw [step, result]; rfl, newInv⟩
  | write place byte => exact ⟨_, rfl, write_spec inv enabled⟩

/-- The invariant holds in every state that such requests lead to. -/
theorem inv_reachable (reachable : heap.Reachable State.Meets state) : state.Inv := by
  refine reachable.invariant (fun _ => init_inv) ?_
  intro state event next inv enabled meets result
  obtain ⟨expected, isExpected, newInv⟩ := step_spec inv enabled meets
  have same : next = expected := Option.some.inj (result.symm.trans isExpected)
  exact same ▸ newInv

/-! ## `tlsf_realloc` -/

/-- A size that is too large is not rejected in place. -/
theorem realloc_rejected {control : Control} {moved : Nat} (notNull : ptr ≠ 0)
    (tooLarge : 2 ^ 32 ≤ size)
    (result : state.control.tlsfRealloc ptr size = some (control, moved)) : moved = ptr := by
  have isZero : adjustRequestSize .bits64 size 8 = 0 := adjust_rejected (.inr tooLarge) 8
  unfold tlsfRealloc at result
  rw [if_neg (by omega), if_neg notNull] at result
  dsimp only at result
  rw [alignSize_bits64, isZero] at result
  simp only [Nat.not_lt_zero, false_and, if_false, Option.bind_eq_bind, Option.bind_eq_some_iff,
    Option.pure_def, Option.some.injEq, Prod.mk.injEq] at result
  obtain ⟨_, _, _, _, _, _, _, _, _, isPtr⟩ := result
  exact isPtr.symm

theorem malloc_outside {control : Control}
    (outside : largestRequest .bits64 < adjustRequestSize .bits64 size 8) :
    control.tlsfMalloc size = none := by
  have accepted : adjustRequestSize .bits64 size 8 ≠ 0 := by omega
  obtain ⟨_, _, _, _, most⟩ := adjust_accepted accepted
  unfold tlsfMalloc
  rw [alignSize_bits64]
  dsimp only
  rw [blockLocateFree_outside outside (by omega)]
  rfl

/-- In every state that is reached, `tlsf_realloc` keeps its promise exactly for the requests that
meet the condition. -/
theorem realloc_promise_iff (reachable : heap.Reachable State.Meets state)
    (enabled : ptr = 0 ∨ state.Holds ptr) (size : Nat) :
    (∃ control moved, state.control.tlsfRealloc ptr size = some (control, moved) ∧
      state.Reallocated ptr size control moved) ↔ state.ReallocMeets ptr size := by
  have inv := inv_reachable reachable
  constructor
  · rintro ⟨control, moved, result, promise⟩
    by_contra fails
    by_cases tooLarge : ptr ≠ 0 ∧ 2 ^ 32 ≤ size
    · obtain ⟨notNull, tooLarge⟩ := tooLarge
      have isPtr := realloc_rejected notNull tooLarge result
      subst isPtr
      obtain ⟨pieces, lists, kept⟩ := promise.inv
      have held : (blockFromPtr moved, size) ∈
          (state.reallocated control moved size moved).live := by
        unfold reallocated granted
        rw [if_neg notNull]
        exact List.mem_cons_self
      obtain ⟨before, piece, after, isSplit, _, _, large, _⟩ := kept.split held
      subst isSplit
      have bounds := kept.rep.laid.piece_bounds (show piece ∈ _ by simp)
      omega
    · have small : ptr = 0 ∨ size < 2 ^ 32 := by omega
      have unserved : ¬ (adjustRequestSize .bits64 size 8 ≤ largestRequest .bits64 ∨
          ptr ≠ 0 ∧ RoomAt state.control (blockFromPtr ptr)
            (adjustRequestSize .bits64 size 8)) := fun served => fails ⟨small, served⟩
      obtain ⟨outside, noRoom⟩ := not_or.mp unserved
      have isNone : state.control.tlsfMalloc size = none := malloc_outside (by omega)
      have accepted : adjustRequestSize .bits64 size 8 ≠ 0 := by omega
      rw [Ne, adjust_eq_zero_iff] at accepted
      rcases enabled with isNull | holds
      · subst isNull
        unfold tlsfRealloc at result
        rw [if_neg (by omega), if_pos rfl, isNone] at result
        cases result
      · obtain ⟨pieces, lists, kept⟩ := inv
        obtain ⟨before, piece, after, isSplit, isPtr, isUsed, notEmpty, _⟩ := kept.holds holds
        subst isSplit isPtr
        have isBlock : blockFromPtr (piece.ptr + 16) = piece.ptr := Nat.add_sub_cancel _ _
        rw [isBlock, roomAt_iff kept.rep notEmpty] at noRoom
        have noRoom : ¬ HasRoom piece after (adjustRequestSize .bits64 size 8) :=
          fun room => noRoom ⟨by omega, room⟩
        rw [realloc_move kept.rep isUsed notEmpty (by omega) noRoom, reallocMove, isNone] at result
        cases result
  · exact realloc_spec inv enabled

/-! ### A heap with a pool -/

/-- No pool is added yet. -/
def bare : State := ⟨construct (fun _ => 0) 4096, [], []⟩

theorem bare_reachable (allowed : State → Event → Prop) : heap.Reachable allowed bare :=
  .init ⟨fun _ => 0, 4096, by decide, by decide, rfl, rfl, rfl⟩

/-- A pool of 1024 bytes is added to the bare heap. -/
theorem pooled_reachable : ∃ state pieces lists, heap.Reachable State.Meets state ∧
    state.Kept pieces lists ∧ poolBlock 10632 1024 ∈ pieces := by
  obtain ⟨pieces, lists, kept⟩ := inv_reachable (bare_reachable State.Meets)
  have owned : bare.Owned 10632 1040 := by
    refine ⟨by decide, by decide, ?_, nofun⟩
    unfold Extent.Apart Apart bare construct tlsfSize
    dsimp only [setField]
    omega
  have meets : poolBytes .bits64 1040 ≠ blockSizeMax .bits64 := by decide
  have isSize : poolBytes .bits64 1040 = 1024 := by decide
  have fits := owned.fits (by decide) (by decide) meets
  obtain ⟨new, newLists, isAdded, newRep, _⟩ := tlsfAddPool_spec (by decide) fits kept.rep
  have newKept := kept.pooled (show 10632 ≠ 0 by decide) (by decide) newRep
  refine ⟨bare.pooled new 10632 1040 10632, _, newLists, ?_, newKept, ?_⟩
  · have enabled : heap.Enabled bare (.addPool 10632 1040) := owned
    refine .step (bare_reachable _) enabled meets ?_
    change (bare.control.tlsfAddPool 10632 1040 >>= _) = _
    rw [isAdded]
    rfl
  · rw [isSize]
    exact List.mem_cons_self

/-- A block of 100 bytes is handed out from the pool. -/
theorem served_reachable : ∃ state ptr, heap.Reachable State.Meets state ∧ state.Holds ptr := by
  obtain ⟨state, pieces, lists, reachable, kept, isBlock⟩ := pooled_reachable
  have isSize : adjustRequestSize .bits64 100 8 = 104 := by decide
  have searchable : Searchable (adjustRequestSize .bits64 100 8) :=
    ⟨by decide, by decide, by decide⟩
  have serves : Serves (targetClass (adjustRequestSize .bits64 100 8)) (classOf 1024) := by
    rw [isSize]
    decide
  rcases tlsfMalloc_spec kept.rep searchable with ⟨_, noneFits⟩ |
    ⟨new, _, _, piece, _, _, _, _, _, isServed, _, _⟩
  · exact absurd serves (noneFits _ isBlock rfl)
  · refine ⟨state.granted new (piece.ptr + 16) 100, piece.ptr + 16, ?_, ?_⟩
    · have meets : state.Meets (.malloc 100) := show _ ≤ _ by decide
      have enabled : heap.Enabled state (.malloc 100) := trivial
      refine .step reachable enabled meets ?_
      change (state.control.tlsfMalloc 100 >>= _) = _
      rw [isServed]
      rfl
    · refine ⟨(piece.ptr, 100), ?_, rfl⟩
      unfold granted
      rw [if_neg (by omega), blockFromPtr, blockStartOffset]
      exact List.mem_cons_self

theorem realloc_promise_bare :
    (∃ control moved, bare.control.tlsfRealloc 0 100 = some (control, moved) ∧
      bare.Reallocated 0 100 control moved) ↔ bare.ReallocMeets 0 100 :=
  realloc_promise_iff (bare_reachable State.Meets) (.inl rfl) 100

/-- A held block is trimmed for a request of `block_size_max` bytes. -/
theorem realloc_promise_fails : ∃ state ptr, heap.Reachable State.Meets state ∧ state.Holds ptr ∧
    ¬ ∃ control moved, state.control.tlsfRealloc ptr (2 ^ 32) = some (control, moved) ∧
      state.Reallocated ptr (2 ^ 32) control moved := by
  obtain ⟨state, ptr, reachable, holds⟩ := served_reachable
  refine ⟨state, ptr, reachable, holds, ?_⟩
  intro promise
  have meets := (realloc_promise_iff reachable (.inr holds) (2 ^ 32)).mp promise
  obtain ⟨used, _, isPtr⟩ := holds
  rcases meets.1 with isNull | small
  · rw [isNull, blockToPtr_eq] at isPtr
    omega
  · exact Nat.lt_irrefl _ small

/-! ## `tlsf_memalign` -/

/-- In every state that is reached, `tlsf_memalign` returns null and changes nothing or returns an
aligned block, exactly for the requests that meet the condition. -/
theorem memalign_sound_iff (reachable : heap.Reachable State.Meets state) (bounded : power < 64)
    (size : Nat) :
    (∃ control ptr, state.control.tlsfMemalign (2 ^ power) size = some (control, ptr) ∧
      (ptr = 0 → control = state.control) ∧
      (ptr ≠ 0 → ptr % 2 ^ power = 0 ∧ size ≤ control.blockSize (blockFromPtr ptr)) ∧
      (state.granted control ptr size).Inv) ↔ state.MemalignMeets (2 ^ power) size := by
  have inv := inv_reachable reachable
  constructor
  · rintro ⟨control, ptr, result, _⟩
    have inTables : alignedSize (2 ^ power) size ≤ largestRequest .bits64 := by
      by_contra outside
      unfold tlsfMemalign at result
      change (state.control.blockLocateFree (alignedSize (2 ^ power) size) >>= _) = _ at result
      rw [blockLocateFree_outside (by omega) (alignedSize_le bounded)] at result
      cases result
    refine ⟨inTables, ?_⟩
    by_contra fails
    obtain ⟨rejected, fails⟩ := not_or.mp fails
    obtain ⟨accepted, serves⟩ := not_or.mp fails
    obtain ⟨pieces, lists, kept⟩ := inv
    obtain ⟨aligned, least⟩ := alignedSize_spec bounded accepted
    rw [nothingServes_iff kept.rep] at serves
    rw [memalign_rejected kept.rep bounded (not_not.mp rejected) ⟨aligned, least, inTables⟩ serves]
      at result
    cases result
  · rintro ⟨inTables, meets⟩
    obtain ⟨control, ptr, result, null, multiple, newInv⟩ :=
      memalign_spec inv bounded inTables meets
    exact ⟨control, ptr, result, null, fun notNull =>
      ⟨multiple, newInv.granted_size_le notNull⟩, newInv⟩

theorem memalign_sound_bare :
    (∃ control ptr, bare.control.tlsfMemalign (2 ^ 6) 100 = some (control, ptr) ∧
      (ptr = 0 → control = bare.control) ∧
      (ptr ≠ 0 → ptr % 2 ^ 6 = 0 ∧ 100 ≤ control.blockSize (blockFromPtr ptr)) ∧
      (bare.granted control ptr 100).Inv) ↔ bare.MemalignMeets (2 ^ 6) 100 :=
  memalign_sound_iff (bare_reachable State.Meets) (by decide) 100

/-- A request for no bytes at a multiple of 16 fails an assertion. -/
theorem memalign_sound_fails : ∃ state, heap.Reachable State.Meets state ∧
    ¬ ∃ control ptr, state.control.tlsfMemalign (2 ^ 4) 0 = some (control, ptr) ∧
      (ptr = 0 → control = state.control) ∧
      (ptr ≠ 0 → ptr % 2 ^ 4 = 0 ∧ 0 ≤ control.blockSize (blockFromPtr ptr)) ∧
      (state.granted control ptr 0).Inv := by
  obtain ⟨state, pieces, lists, reachable, kept, isBlock⟩ := pooled_reachable
  refine ⟨state, reachable, ?_⟩
  rintro ⟨control, ptr, result, _⟩
  have searchable : Searchable (alignedSize (2 ^ 4) 0) := ⟨by decide, by decide, by decide⟩
  have serves : Serves (targetClass (alignedSize (2 ^ 4) 0)) (classOf 1024) := by decide
  rw [memalign_rejected kept.rep (by decide) (by decide) searchable
    (fun noneFits => noneFits _ isBlock rfl serves)] at result
  cases result

end State

end MallocSurvey.Tlsf
