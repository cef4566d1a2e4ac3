import MallocSurvey.Tlsf1.Externalised

/-! # Accounting of the space

The chain of headers tiles the space, and the free counter is the sum of the lengths of
the free blocks. -/

namespace MallocSurvey.Tlsf1.Externalised

open Library

/-- The blocks of the chain follow each other without holes. -/
def ChainTiles (tlsf : Tlsf) : Nat → List Nat → Nat → Prop
  | start, [], stop => start = stop
  | start, blk :: rest, stop =>
      tlsf.field blk .addr = start ∧ ChainTiles tlsf (start + tlsf.blockLength blk) rest stop

/-- What the headers say about a space. -/
structure Accounted (baseptr space : Nat) (state : State) : Prop where
  tiles : ChainTiles state.tlsf baseptr state.tlsf.blklist (baseptr + space)
  coalesced : state.tlsf.blklist.IsChain fun left right =>
    ¬ (state.tlsf.blockFree left = true ∧ state.tlsf.blockFree right = true)
  large : ∀ blk ∈ state.tlsf.blklist, mbs ≤ state.tlsf.blockLength blk
  served : ∀ used ∈ state.live, used.1 ∈ state.tlsf.blklist ∧
    state.tlsf.blockFree used.1 = false ∧ used.2 ≤ state.tlsf.blockLength used.1
  unused : state.tlsf.unusedSpace =
    ((state.tlsf.blklist.filter state.tlsf.blockFree).map state.tlsf.blockLength).sum

/-- No call wraps around or shifts by the width of the word. -/
def Accountable (state : State) : Event → Prop
  | .alloc size _ => state.tlsf.AllocDefined size
  | .free _ | .write _ _ => True

section Accounting

variable {state next start : State} {pieces : List Piece} {lists : Nat × Nat → List Nat}
  {baseptr space : Nat} {event : Event}

theorem chainTiles_of_tiles (rep : Rep state.tlsf pieces lists) {first stop : Nat}
    {part : List Piece} (within : part ⊆ pieces)
    (tiles : Tiles (state.tlsf.field · .addr) 0 first part stop) :
    ChainTiles state.tlsf first (part.map Piece.ptr) stop := by
  induction part generalizing first with
  | nil => exact tiles
  | cons piece rest induction =>
      have isPiece := within List.mem_cons_self
      refine ⟨tiles.1, ?_⟩
      rw [rep.blockLength isPiece]
      have restTiles := tiles.2
      rw [Nat.zero_add] at restTiles
      exact induction (fun _ member => within (List.mem_cons_of_mem _ member)) restTiles

theorem coalesced_chain (rep : Rep state.tlsf pieces lists) (coalesced : Coalesced pieces) :
    (pieces.map Piece.ptr).IsChain fun left right =>
      ¬ (state.tlsf.blockFree left = true ∧ state.tlsf.blockFree right = true) := by
  rw [List.isChain_map]
  apply List.IsChain.imp_of_mem_imp _ coalesced
  intro left right leftMem rightMem notBoth
  rwa [rep.blockFree leftMem, rep.blockFree rightMem]

theorem accounted_of_inv (inv : Inv baseptr space state pieces lists) :
    Accounted baseptr space state := by
  have rep := inv.rep
  refine ⟨?_, ?_, ?_, ?_, ?_⟩
  · rw [inv.external.chain]
    exact chainTiles_of_tiles rep (List.Subset.refl _) inv.external.tiles
  · rw [inv.external.chain]
    exact coalesced_chain rep inv.coalesced
  · intro blk member
    rw [inv.external.chain] at member
    obtain ⟨piece, isPiece, isPtr⟩ := List.mem_map.mp member
    rw [← isPtr, rep.blockLength isPiece]
    exact (rep.length piece isPiece).2
  · intro used member
    obtain ⟨piece, isUsed, isPtr, fits⟩ := inv.handedOut.large used member
    obtain ⟨isPiece, notFree⟩ := List.mem_filter.mp isUsed
    rw [inv.external.chain, ← isPtr, rep.blockFree isPiece, rep.blockLength isPiece]
    exact ⟨List.mem_map_of_mem isPiece, by simpa using notFree, fits⟩
  · rw [inv.external.chain]
    exact rep.unusedSpace_eq

/-- Without blocks in use the whole space is unused. -/
theorem unused_of_drained (inv : Inv baseptr space state pieces lists) (drained : state.live = []) :
    state.tlsf.unusedSpace = space := by
  have handedOut := inv.handedOut
  rw [drained] at handedOut
  obtain ⟨piece, isSingle, isFree⟩ := handedOut.single inv.coalesced inv.nonempty
  have whole := inv.external.covered_eq
  rw [isSingle, covered_cons] at whole
  rw [Tlsf.unusedSpace, inv.rep.counter, isSingle, freeTotal_cons, isFree]
  simp only [covered, freeTotal, List.map_nil, List.filter_nil, List.sum_nil, if_true] at whole ⊢
  omega

/-- Every accountable event is defined and keeps the invariant. -/
theorem inv_step (inv : Inv baseptr space state pieces lists) (enabled : Enabled state event)
    (accountable : Accountable state event) :
    ∃ next newPieces newLists, step state event = some next ∧
      Inv baseptr space next newPieces newLists := by
  cases event with
  | alloc size answer =>
      rcases inv_alloc inv enabled accountable with ⟨result, _⟩ |
        ⟨next, newPieces, newLists, _, result, _, newInv, _⟩
      · exact ⟨state, pieces, lists, result, inv⟩
      · exact ⟨next, newPieces, newLists, result, newInv⟩
  | free blk =>
      obtain ⟨next, newPieces, newLists, result, newInv, _⟩ := inv_free inv enabled
      exact ⟨next, newPieces, newLists, result, newInv⟩
  | write place value => exact ⟨_, pieces, lists, rfl, inv_write inv enabled⟩

theorem inv_leads (init : Init start) (leads : machine.Leads Accountable start state) :
    ∃ pieces lists, Inv start.tlsf.baseptr start.tlsf.size state pieces lists := by
  obtain ⟨pieces, lists, inv, _⟩ := inv_init init
  induction leads with
  | refl => exact ⟨pieces, lists, inv⟩
  | step _ enabled accountable result induction =>
      obtain ⟨_, _, before⟩ := induction
      obtain ⟨next, newPieces, newLists, isResult, newInv⟩ := inv_step before enabled accountable
      cases result.symm.trans isResult
      exact ⟨newPieces, newLists, newInv⟩

/-- In a run without wrapping sizes the headers account for the whole space, no call is
undefined, and once all blocks are freed the unused space is the initial one. -/
theorem space_accounted (init : Init start) (leads : machine.Leads Accountable start state) :
    Accounted start.tlsf.baseptr start.tlsf.size state ∧ machine.Safe Accountable state ∧
      (state.live = [] → state.tlsf.unusedSpace = start.tlsf.unusedSpace) := by
  obtain ⟨pieces, lists, inv⟩ := inv_leads init leads
  obtain ⟨startPieces, startLists, startInv, _⟩ := inv_init init
  refine ⟨accounted_of_inv inv, ?_, ?_⟩
  · intro event enabled accountable
    obtain ⟨next, _, _, result, _⟩ := inv_step inv enabled accountable
    exact fun undefined => Option.some_ne_none next (result.symm.trans undefined)
  · intro drained
    obtain ⟨_, _, _, _, _, _, _, _, _, _, noLive⟩ := init
    rw [unused_of_drained inv drained, unused_of_drained startInv noLive]

theorem space_accounted_once : ∃ start state, Init start ∧
    step start (.alloc 32 0) = some state ∧
    Accounted start.tlsf.baseptr start.tlsf.size state ∧ machine.Safe Accountable state ∧
    (state.live = [] → state.tlsf.unusedSpace = start.tlsf.unusedSpace) := by
  obtain ⟨tlsf, lists, isCreated, inv, _⟩ := @create_spec (fun _ => 0) 4096 128 8192
    (by decide) (by decide) (by decide) (by decide) (by decide)
  have init : Init ⟨tlsf, []⟩ :=
    ⟨_, 4096, 128, 8192, by decide, by decide, by decide, by decide, by decide, isCreated, rfl⟩
  have enabled : machine.Enabled ⟨tlsf, []⟩ (.alloc 32 0) := ⟨by decide, by decide, .inl rfl⟩
  have accountable : Accountable ⟨tlsf, []⟩ (.alloc 32 0) :=
    ⟨by decide +kernel, .inl (by decide +kernel)⟩
  obtain ⟨state, _, _, result, _⟩ :=
    @inv_step _ _ _ _ _ (.alloc 32 0) inv enabled accountable
  exact ⟨_, state, init, result,
    space_accounted init (.step .refl enabled accountable result)⟩

end Accounting

/-! ## A request that wraps around

The space has 128 bytes. The size that is looked for is 63. -/

section Wrapping

variable {state : State} {lists : Nat × Nat → List Nat}

def hugeSize : Nat := 2 ^ 64 - 2 ^ 58 + 64

theorem hugeSize_wraps : roundup2 hugeSize = hugeSize ∧ roundedTarget hugeSize = some 63 ∧
    getMapping 63 = some (5, 31) := by
  decide +kernel

/-- The only block is found, although it is far too small. -/
theorem findClass_single {tlsf : Tlsf} {blk : Nat} (rep : Rep tlsf [⟨blk, 128, true⟩] lists)
    (isExact : BitsExact tlsf lists) : tlsf.findClass 5 31 = some (some (7, 0)) := by
  have mapped : getMapping 128 = some (7, 0) := by decide +kernel
  have listed : blk ∈ lists (7, 0) := (rep.listed (7, 0) blk).mpr ⟨_, List.mem_cons_self, rfl,
    rfl, mapped⟩
  rcases @findClass_spec _ _ _ 5 31 rep (.inl (by decide)) with ⟨_, noneSeen⟩ |
    ⟨index, found, _, nonempty⟩
  · have isSet := isExact 7 0 (List.ne_nil_of_mem listed)
    have level := (rep.level1 7 (by decide)).mpr (ne_zero_of_getLsbD isSet)
    rw [noneSeen.2 7 (by decide) (by decide)] at level
    cases level
  · obtain ⟨ptr, member⟩ := List.exists_mem_of_ne_nil _ nonempty
    obtain ⟨piece, isPiece, _, _, pieceMapped⟩ := rep.listed_mem member
    rw [List.mem_singleton.mp isPiece, mapped] at pieceMapped
    cases pieceMapped
    exact found

/-- `split_block` finds no header and gives the block its old length again. -/
theorem takeBlock_hugeSize {tlsf : Tlsf} {blk : Nat} (rep : Rep tlsf [⟨blk, 128, true⟩] lists)
    (header : tlsf.blkHdrLen = 0) :
    ∃ next, tlsf.takeBlock hugeSize (7, 0) 0 = some (blk, next) ∧ next.blockLength blk = 128 := by
  have mapped : getMapping 128 = some (7, 0) := by decide +kernel
  have removed := rep.remove rfl mapped
  have listed : blk ∈ lists (7, 0) := (rep.listed (7, 0) blk).mpr ⟨_, List.mem_cons_self, rfl,
    rfl, mapped⟩
  have nonzero : tlsf.map (7, 0) ≠ 0 := fun isZero =>
    List.ne_nil_of_mem listed ((rep.map_eq_zero_iff _).mp isZero)
  have isHead : tlsf.map (7, 0) = blk := by
    obtain ⟨piece, isPiece, isPtr, _⟩ := rep.listed_mem (rep.map_mem nonzero)
    rw [← isPtr, List.mem_singleton.mp isPiece]
  have removedHeader : (tlsf.unlinkBlock blk (7, 0)).blkHdrLen = 0 :=
    sameSpace_unlinkBlock.blkHdrLen.trans header
  have removedLen : (tlsf.unlinkBlock blk (7, 0)).field blk .len = 128 := by
    have isWord := removed.word _ List.mem_cons_self
    simpa only [Piece.used, wordOf, Bool.toNat_false, Nat.add_zero] using isWord
  have removedLength : (tlsf.unlinkBlock blk (7, 0)).blockLength blk = 128 := by
    rw [Tlsf.blockLength, removedLen]
  have wraps : subWord 128 hugeSize ≥ mbs + 0 ∧
      addWord hugeSize (subWord (subWord 128 0) hugeSize) = 128 := by decide
  have noHeader := @splitBlock_null _ ⟨blk, 128, false⟩ removedHeader hugeSize
  simp only at noHeader
  rw [removedLength, wraps.2] at noHeader
  rw [Tlsf.takeBlock, removeBlock_head nonzero, isHead, Option.bind_eq_bind, Option.bind_some]
  simp only
  rw [removedLen, removedHeader, if_pos wraps.1, noHeader]
  simp only
  rw [if_neg (not_not.mpr rfl), Option.pure_def]
  refine ⟨((tlsf.unlinkBlock blk (7, 0)).setField blk .len hugeSize).setField blk .len 128,
    ?_, ?_⟩
  · simp only
  · rw [Tlsf.blockLength, Tlsf.field_setField (.refl _) (by decide)]
    simp

theorem alloc_hugeSize (inv : Inv 4096 128 state [⟨8192, 128, true⟩] lists)
    (isExact : BitsExact state.tlsf lists) :
    ∃ next, step state (.alloc hugeSize 0) = some next ∧ (8192, hugeSize) ∈ next.live ∧
      next.tlsf.blockLength 8192 = 128 := by
  obtain ⟨rounded, isTarget, mapped⟩ := hugeSize_wraps
  obtain ⟨tlsf, taken, length⟩ := takeBlock_hugeSize inv.rep inv.external.header
  refine ⟨⟨tlsf, (8192, hugeSize) :: state.live⟩, ?_, List.mem_cons_self, length⟩
  have result : state.tlsf.extAlloc hugeSize 0 = some (8192, tlsf) := by
    rw [Tlsf.extAlloc, rounded, isTarget]
    simp only [Option.bind_eq_bind, Option.bind_some, mapped]
    rw [findClass_single inv.rep isExact, Option.bind_some]
    exact taken
  rw [step, result]
  rfl

/-- A block of 128 bytes is returned for the request. -/
theorem huge_block_too_small : ¬ ∀ start state, Init start →
    machine.Leads (fun _ _ => True) start state →
    Accounted start.tlsf.baseptr start.tlsf.size state ∧
      (state.live = [] → state.tlsf.unusedSpace = start.tlsf.unusedSpace) := by
  intro allAccounted
  obtain ⟨tlsf, lists, isCreated, inv, isExact⟩ := @create_spec (fun _ => 0) 4096 128 8192
    (by decide) (by decide) (by decide) (by decide) (by decide)
  have init : Init ⟨tlsf, []⟩ :=
    ⟨_, 4096, 128, 8192, by decide, by decide, by decide, by decide, by decide, isCreated, rfl⟩
  obtain ⟨next, result, isLive, length⟩ := alloc_hugeSize inv isExact
  have enabled : machine.Enabled ⟨tlsf, []⟩ (.alloc hugeSize 0) :=
    ⟨by decide, by decide, .inl rfl⟩
  have leads : machine.Leads (fun _ _ => True) ⟨tlsf, []⟩ next :=
    .step .refl enabled trivial result
  have served := (allAccounted _ _ init leads).1.served _ isLive
  rw [length] at served
  exact absurd served.2.2 (by decide)

end Wrapping

end MallocSurvey.Tlsf1.Externalised
