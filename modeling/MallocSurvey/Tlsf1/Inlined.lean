import MallocSurvey.Library.Transition
import MallocSurvey.Tlsf1.Inline

/-! # A program that uses inlined headers

The events of a run are the calls of `tlsf_alloc` and `tlsf_free` and the writes of the
program to its blocks and to other memory. The state keeps the headers of the blocks in
use, each with the size that was asked for. -/

namespace MallocSurvey.Tlsf1.Inlined

open Library

structure State where
  tlsf : Tlsf
  live : List (Nat × Nat)

inductive Event
  | alloc (size : Nat)
  | free (blk : Nat)
  | write (place : Nat) (value : UInt8)

/-- The place is outside the space or among the bytes asked for. -/
def Writable (state : State) (place : Nat) : Prop :=
  place < state.tlsf.baseptr ∨ state.tlsf.baseptr + state.tlsf.size ≤ place ∨
    ∃ used ∈ state.live, used.1 + blkHdrLen ≤ place ∧ place < used.1 + blkHdrLen + used.2

def Enabled (state : State) : Event → Prop
  | .alloc size => 0 < size ∧ size < 2 ^ 64
  | .free blk => blk ∈ state.live.map Prod.fst
  | .write place _ => Writable state place

def step (state : State) : Event → Option State
  | .alloc size => do
      let (ptr, tlsf) ← state.tlsf.alloc size
      if ptr = 0 then return { state with tlsf := tlsf }
      else return ⟨tlsf, (ptr - blkHdrLen, size) :: state.live⟩
  | .free blk => do
      let tlsf ← state.tlsf.freePtr (blk + blkHdrLen)
      return ⟨tlsf, state.live.eraseP fun used => used.1 = blk⟩
  | .write place value => some { state with tlsf := state.tlsf.write place value }

/-- An instance over at least 64 bytes of any contents has been created. -/
def Init (state : State) : Prop :=
  ∃ memory baseptr size, baseptr ≠ 0 ∧ 64 ≤ size ∧ baseptr + size < 2 ^ 64 ∧
    Tlsf.create memory baseptr size false 0 = some state.tlsf ∧ state.live = []

def machine : Machine State Event := ⟨Init, Enabled, step⟩

instance (state : State) (event : Event) : Decidable (machine.Enabled state event) :=
  match event with
  | .alloc _ => inferInstanceAs (Decidable (_ ∧ _))
  | .free _ => inferInstanceAs (Decidable (_ ∈ _))
  | .write _ _ => inferInstanceAs (Decidable (_ ∨ _ ∨ ∃ used ∈ state.live, _))

/-- The pieces and lists that the instance represents. -/
structure Inv (baseptr space : Nat) (state : State) (pieces : List Piece)
    (lists : Nat × Nat → List Nat) : Prop where
  inline : Inline baseptr space state.tlsf pieces
  rep : Rep state.tlsf pieces lists
  coalesced : Coalesced pieces
  handedOut : HandedOut state.live pieces

/-- If the block that is found is split, the length that is at the place of the new header
does not lead astray. -/
def StaleLeads (tlsf : Tlsf) (size : Nat) : Prop :=
  ∀ index ∈ (tlsf.findClass (targetClass size).1 (targetClass size).2).join,
    let blk := tlsf.map index
    wanted size + (blkHdrLen + mbs) ≤ tlsf.blockLength blk →
      SplitsInline tlsf ⟨blk, tlsf.blockLength blk, false⟩ (wanted size) 0

instance (tlsf : Tlsf) (size : Nat) : Decidable (StaleLeads tlsf size) :=
  inferInstanceAs (Decidable (∀ index ∈ (_ : Option (Nat × Nat)), _ → _ ∨ _ ∧ _ ∧ _))

variable {state next : State} {pieces : List Piece} {lists : Nat × Nat → List Nat}
  {baseptr space : Nat}

/-! ## The first block -/

/-- The instance before its block is inserted. -/
def created (memory : Memory) (baseptr size : Nat) : Tlsf :=
  let tlsf : Tlsf := ⟨baseptr, size, 0, 0, [], 0#64, fun _ => 0#64, fun _ => 0, memory⟩
  let tlsf := tlsf.setField baseptr .len (subWord size blkHdrLen)
  let tlsf := tlsf.setField baseptr .addr 0
  { tlsf with blkHdrLen := blkHdrLen }

theorem create_eq (memory : Memory) (baseptr size : Nat) :
    Tlsf.create memory baseptr size false 0 =
      (created memory baseptr (Tlsf.roundedSpace size)).insertBlock baseptr := by
  unfold Tlsf.create created
  dsimp only
  rw [if_neg Bool.false_ne_true]

section Created

variable {memory : Memory} {baseptr size : Nat}

theorem field_created (large : blkHdrLen ≤ size) (small : size < 2 ^ 64) :
    (created memory baseptr size).field baseptr .addr = 0 ∧
      (created memory baseptr size).field baseptr .len = size - blkHdrLen := by
  have sameField : ∀ name, (created memory baseptr size).field baseptr name =
      (((⟨baseptr, size, 0, 0, [], 0#64, fun _ => 0#64, fun _ => 0, memory⟩ : Tlsf).setField
        baseptr .len (subWord size blkHdrLen)).setField baseptr .addr 0).field baseptr name := by
    intro name
    simp only [created, Tlsf.field]
  have isLen : subWord size blkHdrLen = size - blkHdrLen := subWord_of_le large small
  rw [sameField, sameField, isLen]
  constructor
  · rw [Tlsf.field_setField (.refl _) (by decide), if_pos ⟨rfl, rfl⟩]
  · rw [Tlsf.field_setField (.refl _) (by decide), if_neg (by simp),
      Tlsf.field_setField (.refl _) (by omega), if_pos ⟨rfl, rfl⟩]

theorem inline_created (nonzero : baseptr ≠ 0) (fits : baseptr + size < 2 ^ 64)
    (large : blkHdrLen ≤ size) :
    Inline baseptr size (created memory baseptr size) [⟨baseptr, size - blkHdrLen, false⟩] := by
  have fields := @field_created memory baseptr size large (by omega)
  refine ⟨rfl, ⟨rfl, ?_⟩, ⟨fields.1, trivial⟩, rfl, rfl, nonzero, fits⟩
  simp only [Tiles]
  omega

theorem rep_created (nonzero : baseptr ≠ 0) (fits : baseptr + size < 2 ^ 64)
    (even : size % 2 = 0) (large : blkHdrLen + mbs ≤ size) :
    Rep (created memory baseptr size) [⟨baseptr, size - blkHdrLen, false⟩] fun _ => [] where
  spaced := List.pairwise_singleton ..
  pointer := by
    intro piece member
    rw [List.mem_singleton.mp member]
    exact ⟨nonzero, by simp only; omega⟩
  word := by
    intro piece member
    rw [List.mem_singleton.mp member]
    exact (field_created (by omega) (by omega)).2
  length := by
    intro piece member
    have header : blkHdrLen = 16 := rfl
    rw [List.mem_singleton.mp member]
    simp only
    omega
  total := by
    simp only [List.map_cons, List.map_nil, List.sum_cons, List.sum_nil]
    omega
  listed := by simp
  nodup _ := List.nodup_nil
  heads _ := rfl
  linked _ := trivial
  level1 := by
    intro fli _
    have noLevel : (created memory baseptr size).l1Free = 0#64 := rfl
    have noWord : (created memory baseptr size).l2Free fli = 0#64 := rfl
    rw [noLevel, noWord]
    simp
  level2 := by
    intro fli sli isSet
    have noWord : (created memory baseptr size).l2Free fli = 0#64 := rfl
    rw [noWord, BitVec.getLsbD_zero] at isSet
    cases isSet
  counter := rfl

end Created

/-- The first block is the whole space and free. -/
theorem create_spec {memory : Memory} {baseptr size : Nat} (nonzero : baseptr ≠ 0)
    (large : 64 ≤ size) (fits : baseptr + size < 2 ^ 64) :
    ∃ tlsf lists, Tlsf.create memory baseptr size false 0 = some tlsf ∧
      Inv baseptr (size / mbs * mbs) ⟨tlsf, []⟩
        [⟨baseptr, size / mbs * mbs - blkHdrLen, true⟩] lists := by
  have below : size / mbs * mbs ≤ size := Nat.div_mul_le_self ..
  have wholeLarge : blkHdrLen + mbs ≤ size / mbs * mbs := by
    have header : blkHdrLen = 16 := rfl
    unfold mbs
    omega
  have even : size / mbs * mbs % 2 = 0 := by
    unfold mbs
    omega
  have inline := @inline_created memory baseptr _ nonzero
    (show baseptr + size / mbs * mbs < 2 ^ 64 by omega) (by omega)
  have rep := @rep_created memory baseptr _ nonzero
    (show baseptr + size / mbs * mbs < 2 ^ 64 by omega) even wholeLarge
  obtain ⟨next, lists, isNext, newInline, newRep, _⟩ :=
    @Physical.insert_spec _ _ _ _ [] [] _ _ physical_inline inline rep rfl
  rw [create_eq, Tlsf.roundedSpace_eq (by omega)]
  exact ⟨next, lists, isNext, newInline, newRep, List.isChain_singleton _, ⟨.refl _, nofun⟩⟩

theorem inv_init (init : Init state) :
    ∃ pieces lists, Inv state.tlsf.baseptr state.tlsf.size state pieces lists := by
  obtain ⟨memory, baseptr, size, nonzero, large, fits, isCreated, noLive⟩ := init
  obtain ⟨tlsf, lists, isTlsf, inv⟩ := @create_spec memory _ _ nonzero large fits
  cases isCreated.symm.trans isTlsf
  rw [inv.inline.base, inv.inline.whole]
  cases state
  cases noLive
  exact ⟨_, lists, inv⟩

/-! ## The writes of the program -/

/-- The place is not in what the allocator keeps of its blocks. -/
def OutsideHeaders (pieces : List Piece) (place : Nat) : Prop :=
  ∀ piece ∈ pieces, place < piece.ptr ∨
    piece.ptr + (if piece.free then sizeofBlk else blkHdrLen) ≤ place

theorem outsideHeaders (inv : Inv baseptr space state pieces lists) {place : Nat}
    (writable : Writable state place) : OutsideHeaders pieces place := by
  intro piece member
  have length := (inv.rep.length piece member).2
  have header : blkHdrLen = 16 := rfl
  have minimum : mbs = 32 := rfl
  have whole : sizeofBlk = 32 := rfl
  have kept : (if piece.free then sizeofBlk else blkHdrLen) ≤ blkHdrLen + piece.len := by
    split <;> omega
  obtain ⟨before, after, isSplit⟩ := List.append_of_mem member
  have inline := inv.inline
  rw [isSplit] at inline
  obtain ⟨isPtr, stop⟩ := inline.ptr_eq
  unfold Writable at writable
  rw [inline.base, inline.whole] at writable
  rcases writable with low | high | ⟨used, isLive, low, high⟩
  · omega
  · omega
  · obtain ⟨other, isUsed, otherPtr, large⟩ := inv.handedOut.large used isLive
    obtain ⟨inPieces, notFree⟩ := List.mem_filter.mp isUsed
    rw [← otherPtr] at low high
    rw [isSplit, List.mem_append, List.mem_cons] at inPieces
    rcases inPieces with inBefore | isSame | inAfter
    · have below := inline.below inBefore
      omega
    · rw [isSame] at low notFree
      rw [Bool.not_eq_true'] at notFree
      rw [notFree, if_neg Bool.false_ne_true]
      omega
    · have above := inline.above inAfter
      omega

/-- A write that keeps what the allocator keeps. -/
theorem field_write (place : Nat) (value : UInt8) {tlsf : Tlsf} {piece : Piece} {name : Field}
    (outside : place < piece.ptr ∨
      piece.ptr + (if piece.free then sizeofBlk else blkHdrLen) ≤ place)
    (kept : piece.free = true ∨ name.offset + 8 ≤ blkHdrLen) :
    (tlsf.write place value).field piece.ptr name = tlsf.field piece.ptr name := by
  have bound := name.offset_le
  apply loadPointer_congr
  intro other low high
  apply Function.update_of_ne
  rcases kept with isFree | inHeader
  · rw [isFree, if_pos rfl] at outside
    omega
  · have smaller : blkHdrLen ≤ sizeofBlk := by decide
    have header : blkHdrLen ≤ if piece.free then sizeofBlk else blkHdrLen := by
      split <;> omega
    omega

theorem inv_write (inv : Inv baseptr space state pieces lists) {place : Nat} {value : UInt8}
    (writable : Writable state place) :
    Inv baseptr space { state with tlsf := state.tlsf.write place value } pieces lists := by
  have outside := outsideHeaders inv writable
  have separated : (usedPieces pieces ++ pieces.filter Piece.free).Perm pieces :=
    List.perm_append_comm.trans (List.filter_append_perm Piece.free pieces)
  have relaid : Relaid state.tlsf (state.tlsf.write place value) (usedPieces pieces)
      (pieces.filter Piece.free) := by
    refine ⟨⟨rfl, rfl, rfl, rfl⟩, ?_, ?_⟩
    · intro piece member name _
      obtain ⟨isPiece, isFree⟩ := List.mem_filter.mp member
      exact field_write place value (outside piece isPiece) (.inl isFree)
    · intro piece member
      obtain ⟨isPiece, notFree⟩ := List.mem_filter.mp member
      rw [field_write place value (outside piece isPiece) (.inr (by decide)),
        inv.rep.word piece isPiece, wordOf]
      simp only [Bool.not_eq_true'] at notFree
      rw [notFree]
      rfl
  have allUsed : ∀ piece ∈ usedPieces pieces, piece.free = false := by
    intro piece member
    simpa using (List.mem_filter.mp member).2
  have rep := inv.rep.perm separated.symm
  have inline : Inline baseptr space (state.tlsf.write place value) pieces :=
    inv.inline.congr ⟨rfl, rfl, rfl, rfl⟩ (fun piece member =>
      field_write place value (outside piece member) (.inr (by decide))) rfl
  refine ⟨inline, Rep.perm ?_ separated, inv.coalesced, inv.handedOut⟩
  exact rep.relayout relaid allUsed allUsed rep.spaced
    (fun piece member => rep.pointer piece (List.mem_append_left _ member))
    (fun piece member => rep.length piece (List.mem_append_left _ member)) rep.total

/-! ## The calls -/

/-- The bytes of a block in use are not written by the allocator. -/
theorem untouched_payload (inline : Inline baseptr space state.tlsf pieces) {piece : Piece}
    (member : piece ∈ usedPieces pieces) {place : Nat} (low : piece.ptr + blkHdrLen ≤ place)
    (high : place < piece.ptr + (blkHdrLen + piece.len)) : Untouched pieces place := by
  have header : blkHdrLen = 16 := rfl
  have whole : sizeofBlk = 32 := rfl
  obtain ⟨isPiece, notFree⟩ := List.mem_filter.mp member
  obtain ⟨before, after, isSplit⟩ := List.append_of_mem isPiece
  rw [isSplit] at inline ⊢
  intro other otherMem
  have bound : span other ≤ sizeofBlk + other.len := by
    unfold span
    split <;> omega
  rcases List.mem_append.mp otherMem with inBefore | inRest
  · have below := inline.below inBefore
    omega
  · rcases List.mem_cons.mp inRest with isSame | inAfter
    · rw [isSame, span]
      rw [Bool.not_eq_true'] at notFree
      rw [notFree, if_neg Bool.false_ne_true]
      exact .inr low
    · have above := inline.above inAfter
      omega

theorem mapped_of_head (rep : Rep state.tlsf pieces lists) {index : Nat × Nat} {piece : Piece}
    (isHead : state.tlsf.map index = piece.ptr) (member : piece ∈ pieces) :
    getMapping piece.len = some index := by
  have nonzero : state.tlsf.map index ≠ 0 := isHead ▸ (rep.pointer piece member).1
  obtain ⟨other, isPiece, isPtr, _, mapped⟩ := rep.listed_mem (rep.map_mem nonzero)
  have same := List.inj_on_of_nodup_map rep.nodup_ptr isPiece member (isPtr.trans isHead)
  exact same ▸ mapped

/-- Removing the block from its list does not change the length at the place of the new
header. -/
theorem stale_unlinked {tlsf : Tlsf} {before after : List Piece} {piece : Piece}
    (inline : Inline baseptr space tlsf (before ++ piece :: after))
    (rep : Rep tlsf (before ++ piece :: after) lists) (isFree : piece.free = true)
    {index : Nat × Nat} (mapped : getMapping piece.len = some index) {size : Nat}
    (large : mbs ≤ size) (leaves : size + (blkHdrLen + mbs) ≤ piece.len) :
    (tlsf.unlinkBlock piece.ptr index).blockLength (piece.ptr + blkHdrLen + size) =
      tlsf.blockLength (piece.ptr + blkHdrLen + size) := by
  have outside := sameOutside_unlinkBlock (rep.perm List.perm_middle) isFree mapped
  have header : blkHdrLen = 16 := rfl
  have minimum : mbs = 32 := rfl
  have whole : sizeofBlk = 32 := rfl
  unfold Tlsf.blockLength Tlsf.field
  rw [loadPointer_congr]
  intro place low high
  apply outside.memory
  simp only [Field.offset] at low high
  intro other member _
  rcases List.mem_cons.mp member with isPiece | isOther
  · rw [isPiece]
    omega
  · rcases List.mem_append.mp isOther with inBefore | inAfter
    · have below := inline.below inBefore
      omega
    · have above := inline.above inAfter
      omega

theorem splits_unlinked (inv : Inv baseptr space state pieces lists) {size : Nat}
    (positive : 0 < size) (stale : StaleLeads state.tlsf size) {index : Nat × Nat}
    {piece : Piece}
    (found : state.tlsf.findClass (targetClass size).1 (targetClass size).2 = some (some index))
    (isHead : state.tlsf.map index = piece.ptr) (member : piece ∈ pieces)
    (isFree : piece.free = true) (leaves : wanted size + (blkHdrLen + mbs) ≤ piece.len) :
    SplitsInline (state.tlsf.unlinkBlock piece.ptr index) piece.used (wanted size) 0 := by
  have mapped := mapped_of_head inv.rep isHead member
  have leads := stale index (by rw [found]; rfl)
  have length := inv.rep.blockLength member
  dsimp only at leads
  rw [isHead, length] at leads
  have atStale := leads leaves
  obtain ⟨before, after, isSplit⟩ := List.append_of_mem member
  have inline := inv.inline
  have rep := inv.rep
  rw [isSplit] at inline rep
  have internal : state.tlsf.blkHdrLen ≠ 0 := by
    rw [inline.header]
    decide
  have sameRem := getNextPhysblk_congr sameSpace_unlinkBlock
    (stale_unlinked inline rep isFree mapped (mbs_le_wanted positive) leaves) internal
  have removed := (rep.perm List.perm_middle).remove isFree mapped
  have newLength : (state.tlsf.unlinkBlock piece.ptr index).blockLength piece.ptr =
      state.tlsf.blockLength piece.ptr := by
    rw [length]
    exact @Rep.blockLength _ _ _ piece.used removed List.mem_cons_self
  have samePiece := getNextPhysblk_congr sameSpace_unlinkBlock newLength internal
  unfold SplitsInline at atStale ⊢
  dsimp only [Piece.used] at atStale ⊢
  rw [sameRem, samePiece]
  exact atStale

/-- No byte of a block that stays in use is written. -/
def KeepsPayloads (state next : State) : Prop :=
  ∀ used ∈ state.live, used ∈ next.live → ∀ place, used.1 + blkHdrLen ≤ place →
    place < used.1 + (blkHdrLen + state.tlsf.blockLength used.1) →
    next.tlsf.memory place = state.tlsf.memory place

theorem keepsPayloads (inv : Inv baseptr space state pieces lists) {newPieces : List Piece}
    (newInline : Inline baseptr space next.tlsf newPieces)
    (stays : ∀ used ∈ state.live, used ∈ next.live → ∀ piece ∈ usedPieces pieces,
      piece.ptr = used.1 → piece ∈ usedPieces newPieces)
    (memory : ∀ place, Untouched pieces place → Untouched newPieces place →
      next.tlsf.memory place = state.tlsf.memory place) : KeepsPayloads state next := by
  intro used isLive staysLive place low high
  obtain ⟨piece, isUsed, isPtr, _⟩ := inv.handedOut.large used isLive
  rw [← isPtr, inv.rep.blockLength (List.mem_of_mem_filter isUsed)] at high
  rw [← isPtr] at low
  apply memory
  · exact untouched_payload inv.inline isUsed low high
  · exact untouched_payload newInline (stays used isLive staysLive piece isUsed isPtr) low high

/-- A call of `tlsf_alloc` on which nothing wraps around or leads astray. -/
theorem inv_alloc (inv : Inv baseptr space state pieces lists) {size : Nat}
    (positive : 0 < size) (isDefined : state.tlsf.AllocDefined size)
    (stale : StaleLeads state.tlsf size) :
    ∃ next newPieces newLists, step state (.alloc size) = some next ∧
      Inv baseptr space next newPieces newLists ∧ KeepsPayloads state next := by
  have splits := fun index piece found isHead member isFree leaves =>
    @splits_unlinked _ _ _ _ _ inv size positive stale index piece found isHead member isFree leaves
  rcases physical_inline.extAlloc_spec inv.inline inv.rep positive isDefined splits with
    ⟨result, _⟩ | ⟨before, piece, after, tlsf, middle, newLists, isSplit, isFree, result,
      obtained, newInline, newRep, memory, _⟩
  · refine ⟨state, pieces, lists, ?_, inv, fun _ _ _ _ _ _ => rfl⟩
    simp only [step, Tlsf.alloc, result, Option.bind_eq_bind, Option.bind_some, if_true,
      Option.pure_def]
  · subst isSplit
    have nonzero := (inv.rep.pointer piece (by simp)).1
    refine ⟨⟨tlsf, (piece.ptr, size) :: state.live⟩, _, newLists, ?_,
      ⟨newInline, newRep, inv.coalesced.obtained isFree obtained,
        inv.handedOut.obtained isFree obtained (le_wanted size)⟩, ?_⟩
    · simp only [step, Tlsf.alloc, result, Option.bind_eq_bind, Option.bind_some]
      rw [if_neg nonzero, Option.pure_def, Option.bind_some]
      simp only
      rw [if_neg (by omega), Nat.add_sub_cancel, Option.pure_def]
    · apply keepsPayloads inv newInline _ memory
      intro used _ _ other isUsed _
      obtain ⟨len, _, isNew⟩ := usedPieces_obtained obtained before after
      rw [usedPieces_append, usedPieces_cons_free isFree, List.mem_append] at isUsed
      rw [isNew]
      simpa using isUsed.imp id .inr

/-- A call of `tlsf_free` for a block in use. -/
theorem inv_free (inv : Inv baseptr space state pieces lists) {blk : Nat}
    (enabled : blk ∈ state.live.map Prod.fst) :
    ∃ next newPieces newLists, step state (.free blk) = some next ∧
      Inv baseptr space next newPieces newLists ∧ KeepsPayloads state next := by
  obtain ⟨before, piece, after, isSplit, isPtr, isUsed⟩ := inv.handedOut.split enabled
  subst isSplit isPtr
  obtain ⟨tlsf, newLists, result, newInline, newRep, memory, _⟩ :=
    physical_inline.extFree_spec inv.inline inv.rep isUsed
  have handedOut := inv.handedOut.released (inv.handedOut.nodup inv.rep.nodup_ptr) isUsed blkHdrLen
  refine ⟨⟨tlsf, state.live.eraseP fun used => used.1 = piece.ptr⟩, _, newLists, ?_,
    ⟨newInline, newRep, inv.coalesced.released blkHdrLen, handedOut⟩, ?_⟩
  · simp only [step, Tlsf.freePtr, Nat.add_sub_cancel, result, Option.bind_eq_bind,
      Option.bind_some, Option.pure_def]
  · apply keepsPayloads inv newInline _ memory
    intro used _ staysLive other otherUsed otherPtr
    obtain ⟨kept, keptUsed, keptPtr, _⟩ := handedOut.large used staysLive
    have sameUsed := usedPieces_released blkHdrLen before piece after
    have keptMem : kept ∈ usedPieces (before ++ piece :: after) := by
      rw [sameUsed, List.mem_append] at keptUsed
      rw [usedPieces_append, usedPieces_cons_used isUsed, List.mem_append]
      exact keptUsed.imp id (List.mem_cons_of_mem _)
    have same : other = kept := List.inj_on_of_nodup_map inv.rep.nodup_ptr
      (List.mem_of_mem_filter otherUsed) (List.mem_of_mem_filter keptMem)
      (otherPtr.trans keptPtr.symm)
    rw [same]
    exact keptUsed

end MallocSurvey.Tlsf1.Inlined
