import MallocSurvey.Library.Transition
import MallocSurvey.Tlsf1.External

/-! # A program that uses external headers

The events of a run are the calls of `tlsf_ext_alloc` and `tlsf_ext_free` and the writes
of the program to memory that is not a header. Beside the instance the state keeps the
blocks in use, each with the size that was asked for. -/

namespace MallocSurvey.Tlsf1.Externalised

open Library

structure State where
  tlsf : Tlsf
  live : List (Nat × Nat)

inductive Event
  | alloc (size answer : Nat)
  | free (blk : Nat)
  | write (place : Nat) (value : UInt8)

def Enabled (state : State) : Event → Prop
  | .alloc size answer => 0 < size ∧ size < 2 ^ 64 ∧ AnswersHeader state.tlsf answer
  | .free blk => blk ∈ state.live.map Prod.fst
  | .write place _ => ∀ blk ∈ state.tlsf.blklist, place < blk ∨ blk + Tlsf.sizeofExtblk ≤ place

def step (state : State) : Event → Option State
  | .alloc size answer => do
      let (blk, tlsf) ← state.tlsf.extAlloc size answer
      if blk = 0 then return { state with tlsf := tlsf }
      else return ⟨tlsf, (blk, size) :: state.live⟩
  | .free blk => do
      let tlsf ← state.tlsf.extFree blk
      return ⟨tlsf, state.live.eraseP fun used => used.1 = blk⟩
  | .write place value => some { state with tlsf := state.tlsf.write place value }

/-- An instance over a space that does not wrap around has been created. -/
def Init (state : State) : Prop :=
  ∃ memory baseptr size extblk, baseptr < 2 ^ 64 ∧ size < 2 ^ 64 ∧
    baseptr + size ≤ 2 ^ 64 ∧ extblk ≠ 0 ∧
    extblk + Tlsf.sizeofExtblk ≤ 2 ^ 64 ∧
    Tlsf.create memory baseptr size true extblk = some state.tlsf ∧ state.live = []

def machine : Machine State Event := ⟨Init, Enabled, step⟩

instance (state : State) (event : Event) : Decidable (machine.Enabled state event) :=
  match event with
  | .alloc _ answer => inferInstanceAs (Decidable (_ ∧ _ ∧ (answer = 0 ∨ _ ∧
      ∀ blk ∈ state.tlsf.blklist, _ ∨ _)))
  | .free _ => inferInstanceAs (Decidable (_ ∈ _))
  | .write place _ => inferInstanceAs (Decidable (∀ blk ∈ state.tlsf.blklist, _ ∨ _))

/-- The pieces and lists that the instance represents. -/
structure Inv (baseptr space : Nat) (state : State) (pieces : List Piece)
    (lists : Nat × Nat → List Nat) : Prop where
  external : External baseptr space state.tlsf pieces
  rep : Rep state.tlsf pieces lists
  coalesced : Coalesced pieces
  nonempty : pieces ≠ []
  handedOut : HandedOut state.live pieces

variable {state next : State} {pieces : List Piece} {lists : Nat × Nat → List Nat}
  {baseptr space : Nat}

/-! ## The first block -/

/-- The instance before its block is inserted. -/
def created (memory : Memory) (baseptr size extblk : Nat) : Tlsf :=
  let tlsf : Tlsf := ⟨baseptr, size, 0, 0, [], 0#64, fun _ => 0#64, fun _ => 0, memory⟩
  let tlsf := { tlsf with memory := storeBytes memory extblk Tlsf.sizeofExtblk 0 }
  let tlsf := (tlsf.setField extblk .addr baseptr).setField extblk .len size
  { tlsf with blklist := [extblk] }

theorem create_eq (memory : Memory) (baseptr size extblk : Nat) :
    Tlsf.create memory baseptr size true extblk =
      (created memory baseptr (Tlsf.roundedSpace size) extblk).insertBlock extblk := by
  unfold Tlsf.create created
  dsimp only
  rw [if_pos rfl]

section Created

variable {memory : Memory} {baseptr size extblk : Nat}

theorem field_created (baseFits : baseptr < 2 ^ 64) (small : size < 2 ^ 64) :
    (created memory baseptr size extblk).field extblk .addr = baseptr ∧
      (created memory baseptr size extblk).field extblk .len = size := by
  have sameField : ∀ name, (created memory baseptr size extblk).field extblk name =
      (((⟨baseptr, size, 0, 0, [], 0#64, fun _ => 0#64, fun _ => 0,
        storeBytes memory extblk Tlsf.sizeofExtblk 0⟩ : Tlsf).setField extblk .addr
          baseptr).setField extblk .len size).field extblk name := by
    intro name
    simp only [created, Tlsf.field]
  rw [sameField, sameField, Tlsf.field_setField (.refl _) small,
    Tlsf.field_setField (.refl _) small, Tlsf.field_setField (.refl _) baseFits]
  simp

theorem external_created (fits : baseptr + size ≤ 2 ^ 64) (large : mbs ≤ size)
    (small : size < 2 ^ 64) :
    External baseptr size (created memory baseptr size extblk) [⟨extblk, size, false⟩] := by
  have positive : 0 < mbs := by decide
  have fields := @field_created memory baseptr size extblk (by omega) small
  refine ⟨rfl, rfl, ⟨fields.1, ?_⟩, rfl, rfl, fits, small⟩
  rw [Tiles, Nat.zero_add]

theorem rep_created (baseFits : baseptr < 2 ^ 64) (even : size % 2 = 0) (large : mbs ≤ size)
    (small : size < 2 ^ 64) (nonzero : extblk ≠ 0) (headerFits : extblk < 2 ^ 64) :
    Rep (created memory baseptr size extblk) [⟨extblk, size, false⟩] fun _ => [] where
  spaced := List.pairwise_singleton ..
  pointer := by
    intro piece member
    rw [List.mem_singleton.mp member]
    exact ⟨nonzero, headerFits⟩
  word := by
    intro piece member
    rw [List.mem_singleton.mp member]
    exact (field_created baseFits small).2
  length := by
    intro piece member
    rw [List.mem_singleton.mp member]
    exact ⟨even, large⟩
  total := by simpa using small
  listed := by simp
  nodup _ := List.nodup_nil
  heads _ := rfl
  linked _ := trivial
  level1 := by
    intro fli _
    have noLevel : (created memory baseptr size extblk).l1Free = 0#64 := rfl
    have noWord : (created memory baseptr size extblk).l2Free fli = 0#64 := rfl
    rw [noLevel, noWord]
    simp
  level2 := by
    intro fli sli isSet
    have noWord : (created memory baseptr size extblk).l2Free fli = 0#64 := rfl
    rw [noWord, BitVec.getLsbD_zero] at isSet
    cases isSet
  counter := rfl

end Created

/-- The first block is the whole space and free. -/
theorem create_spec {memory : Memory} {baseptr size extblk : Nat} (small : size < 2 ^ 64)
    (large : mbs ≤ size) (fits : baseptr + size ≤ 2 ^ 64) (nonzero : extblk ≠ 0)
    (headerFits : extblk + Tlsf.sizeofExtblk ≤ 2 ^ 64) :
    ∃ tlsf lists, Tlsf.create memory baseptr size true extblk = some tlsf ∧
      Inv baseptr (size / mbs * mbs) ⟨tlsf, []⟩ [⟨extblk, size / mbs * mbs, true⟩] lists ∧
      BitsExact tlsf lists := by
  have below : size / mbs * mbs ≤ size := Nat.div_mul_le_self ..
  have wholeLarge : mbs ≤ size / mbs * mbs := by
    unfold mbs at large ⊢
    omega
  have even : size / mbs * mbs % 2 = 0 := by
    unfold mbs
    omega
  have positive : 0 < mbs := by decide
  have external := @external_created memory baseptr _ extblk
    (show baseptr + size / mbs * mbs ≤ 2 ^ 64 by omega) wholeLarge (by omega)
  have rep := @rep_created memory baseptr _ extblk (by omega) even wholeLarge (by omega) nonzero
    (by unfold Tlsf.sizeofExtblk at headerFits; omega)
  have noBits : BitsExact (created memory baseptr (size / mbs * mbs) extblk) fun _ => [] :=
    fun _ _ nonempty => absurd rfl nonempty
  obtain ⟨next, lists, isNext, newExternal, newRep, _, newExact⟩ :=
    @Physical.insert_spec _ _ _ _ [] [] _ _ physical_external external rep rfl
  rw [create_eq, Tlsf.roundedSpace_eq small]
  exact ⟨next, lists, isNext,
    ⟨newExternal, newRep, List.isChain_singleton _, List.cons_ne_nil _ _, ⟨.refl _, nofun⟩⟩,
    newExact noBits⟩

/-- A space that is too small has no class. -/
theorem create_small {memory : Memory} {baseptr size extblk : Nat} (baseFits : baseptr < 2 ^ 64)
    (tooSmall : size < mbs) : Tlsf.create memory baseptr size true extblk = none := by
  have small : size < 2 ^ 64 := by
    unfold mbs at tooSmall
    omega
  rw [create_eq, Tlsf.roundedSpace_eq small, Nat.div_eq_of_lt tooSmall, Nat.zero_mul,
    Tlsf.insertBlock, (field_created baseFits (by decide)).2]
  rfl

theorem inv_init (init : Init state) :
    ∃ pieces lists, Inv state.tlsf.baseptr state.tlsf.size state pieces lists ∧
      BitsExact state.tlsf lists := by
  obtain ⟨memory, baseptr, size, extblk, baseFits, small, fits, nonzero, headerFits, isCreated,
    noLive⟩ := init
  have large : mbs ≤ size := by
    by_contra tooSmall
    rw [create_small baseFits (Nat.lt_of_not_le tooSmall)] at isCreated
    cases isCreated
  obtain ⟨tlsf, lists, isTlsf, inv, isExact⟩ := @create_spec memory _ _ _ small large fits nonzero headerFits
  cases isCreated.symm.trans isTlsf
  rw [inv.external.base, inv.external.whole]
  cases state
  cases noLive
  exact ⟨_, lists, inv, isExact⟩

/-! ## The steps -/

theorem inv_write (inv : Inv baseptr space state pieces lists) {place : Nat} {value : UInt8}
    (enabled : Enabled state (.write place value)) :
    Inv baseptr space { state with tlsf := state.tlsf.write place value } pieces lists := by
  have fields : ∀ piece ∈ pieces, ∀ name,
      (state.tlsf.write place value).field piece.ptr name =
        state.tlsf.field piece.ptr name := by
    intro piece member name
    have outside := enabled piece.ptr (by
      rw [inv.external.chain]
      exact List.mem_map_of_mem member)
    apply Tlsf.field_write
    unfold Tlsf.sizeofExtblk at outside
    unfold sizeofBlk
    omega
  have relaid : Relaid state.tlsf (state.tlsf.write place value) [] pieces :=
    ⟨⟨rfl, rfl, rfl, rfl⟩, fun piece member name _ => fields piece member name, nofun⟩
  have rep : Rep state.tlsf ([] ++ pieces) lists := inv.rep
  have external : External baseptr space (state.tlsf.write place value) pieces :=
    External.congr inv.external ⟨rfl, rfl, rfl, rfl⟩
      (fun piece member => fields piece member .addr) rfl
  exact ⟨external, rep.relayout relaid nofun nofun inv.rep.spaced nofun nofun inv.rep.total,
    inv.coalesced, inv.nonempty, inv.handedOut⟩

/-- A call of `tlsf_ext_alloc` on which nothing wraps around. -/
theorem inv_alloc (inv : Inv baseptr space state pieces lists) {size answer : Nat}
    (enabled : Enabled state (.alloc size answer)) (isDefined : state.tlsf.AllocDefined size) :
    step state (.alloc size answer) = some state ∧
        NoneSeen state.tlsf (targetClass size).1 (targetClass size).2 ∨
      ∃ next newPieces newLists blk, step state (.alloc size answer) = some next ∧
        next.live = (blk, size) :: state.live ∧
        Inv baseptr space next newPieces newLists ∧
        (BitsExact state.tlsf lists → BitsExact next.tlsf newLists) := by
  obtain ⟨positive, _, answers⟩ := enabled
  have answersToo : ∀ index piece,
      state.tlsf.findClass (targetClass size).1 (targetClass size).2 = some (some index) →
      state.tlsf.map index = piece.ptr → piece ∈ pieces → piece.free = true →
      wanted size + (0 + mbs) ≤ piece.len →
      AnswersHeader (state.tlsf.unlinkBlock piece.ptr index) answer := by
    intro index piece _ _ _ _ _
    unfold AnswersHeader
    rw [sameSpace_unlinkBlock.blklist]
    exact answers
  rcases physical_external.extAlloc_spec inv.external inv.rep positive isDefined answersToo with
    ⟨result, noneSeen⟩ | ⟨before, piece, after, tlsf, middle, newLists, isSplit, isFree, result,
      obtained, newExternal, newRep, _, newExact⟩
  · left
    refine ⟨?_, noneSeen⟩
    simp only [step, result, Option.bind_eq_bind, Option.bind_some, if_true]
    rfl
  · right
    subst isSplit
    have nonzero := (inv.rep.pointer piece (by simp)).1
    refine ⟨⟨tlsf, (piece.ptr, size) :: state.live⟩, _, newLists, piece.ptr, ?_, rfl,
      ⟨newExternal, newRep, inv.coalesced.obtained isFree obtained, ?_,
        inv.handedOut.obtained isFree obtained (le_wanted size)⟩,
      newExact⟩
    · simp only [step, result, Option.bind_eq_bind, Option.bind_some]
      rw [if_neg nonzero]
      rfl
    · obtain ⟨_, isWhole | ⟨_, rem, isSplit⟩⟩ := obtained
      · simp [isWhole]
      · simp [isSplit]

/-- A call of `tlsf_ext_free` for a block in use. -/
theorem inv_free (inv : Inv baseptr space state pieces lists) {blk : Nat} (enabled : Enabled state (.free blk)) :
    ∃ next newPieces newLists, step state (.free blk) = some next ∧
      Inv baseptr space next newPieces newLists ∧
      (BitsExact state.tlsf lists → state.tlsf.FreeKeepsBits blk →
        BitsExact next.tlsf newLists) := by
  obtain ⟨before, piece, after, isSplit, isPtr, isUsed⟩ := inv.handedOut.split enabled
  subst isSplit isPtr
  obtain ⟨tlsf, newLists, result, newExternal, newRep, _, newExact⟩ :=
    physical_external.extFree_spec inv.external inv.rep isUsed
  refine ⟨⟨tlsf, state.live.eraseP fun used => used.1 = piece.ptr⟩, _, newLists, ?_,
    ⟨newExternal, newRep, inv.coalesced.released 0, ?_,
      inv.handedOut.released (inv.handedOut.nodup inv.rep.nodup_ptr) isUsed 0⟩,
    newExact⟩
  · simp only [step, result, Option.bind_eq_bind, Option.bind_some]
    rfl
  · unfold released
    simp

end MallocSurvey.Tlsf1.Externalised
