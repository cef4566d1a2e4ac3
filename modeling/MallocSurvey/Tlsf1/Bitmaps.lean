import MallocSurvey.Tlsf1.Accounting

/-! # The bits and the lists

The bits agree with the lists as long as no merge removes the last one of several blocks
of a class. -/

namespace MallocSurvey.Tlsf1.Externalised

open Library

/-- The blocks from the head of a class along the links. -/
structure ClassList (tlsf : Tlsf) (index : Nat × Nat) (blks : List Nat) : Prop where
  head : tlsf.map index = blks.headD 0
  linked : DoublyLinked 0 (tlsf.field · .next) (tlsf.field · .prev) 0 blks
  nonzero : 0 ∉ blks
  nodup : blks.Nodup

/-- The bits agree with the lists, and every free block is on the list of its class. -/
structure BitsAgree (tlsf : Tlsf) (lists : Nat × Nat → List Nat) : Prop where
  chained : ∀ index, ClassList tlsf index (lists index)
  listed : ∀ index blk, blk ∈ lists index ↔ blk ∈ tlsf.blklist ∧ tlsf.blockFree blk = true ∧
    getMapping (tlsf.blockLength blk) = some index
  level2 : ∀ fli sli, (tlsf.l2Free fli).getLsbD sli = true ↔ lists (fli, sli) ≠ []
  level1 : ∀ fli < 64, tlsf.l1Free.getLsbD fli = true ↔ tlsf.l2Free fli ≠ 0#64

/-- If a request has to be served by a higher level, the lower half of the first-level
word shows one. -/
def LevelSeen (tlsf : Tlsf) (size : Nat) : Prop :=
  eligibleWord tlsf size ≠ 0#64 ∨
    (∃ level < 32, (targetClass size).1 < level ∧ tlsf.l1Free.getLsbD level = true) ∨
    ∀ level, (targetClass size).1 < level → tlsf.l1Free.getLsbD level = false

/-- The calls on which the bits are right. -/
def KeepsBits (state : State) : Event → Prop
  | .alloc size _ => state.tlsf.AllocDefined size ∧ LevelSeen state.tlsf size
  | .free blk => state.tlsf.FreeKeepsBits blk
  | .write _ _ => True

/-- No class that serves the request has a block. -/
def NoneEligible (tlsf : Tlsf) (size : Nat) : Prop :=
  ∀ index, Tlsf1.Serves (targetClass size) index → tlsf.map index = 0

section Agreement

variable {state next start : State} {pieces : List Piece} {lists : Nat × Nat → List Nat}
  {baseptr space : Nat} {event : Event}

theorem bitsAgree_of_inv (inv : Inv baseptr space state pieces lists)
    (isExact : BitsExact state.tlsf lists) : BitsAgree state.tlsf lists := by
  have rep := inv.rep
  refine ⟨fun index => ⟨rep.heads index, rep.linked index, rep.zero_not_listed index,
    rep.nodup index⟩, ?_, ?_, rep.level1⟩
  · intro index blk
    rw [rep.listed, inv.external.chain]
    constructor
    · rintro ⟨piece, isPiece, isPtr, isFree, mapped⟩
      rw [← isPtr, rep.blockFree isPiece, rep.blockLength isPiece]
      exact ⟨List.mem_map_of_mem isPiece, isFree, mapped⟩
    · rintro ⟨member, isFree, mapped⟩
      obtain ⟨piece, isPiece, isPtr⟩ := List.mem_map.mp member
      rw [← isPtr, rep.blockFree isPiece] at isFree
      rw [← isPtr, rep.blockLength isPiece] at mapped
      exact ⟨piece, isPiece, isPtr, isFree, mapped⟩
  · intro fli sli
    exact ⟨rep.level2 fli sli, isExact fli sli⟩

/-- What the bits do not show is not there. -/
theorem noneEligible (rep : Rep state.tlsf pieces lists) (isExact : BitsExact state.tlsf lists)
    {size : Nat} (noneSeen : NoneSeen state.tlsf (targetClass size).1 (targetClass size).2)
    (seen : LevelSeen state.tlsf size) : NoneEligible state.tlsf size := by
  have noWord : eligibleWord state.tlsf size = 0#64 := by
    apply BitVec.eq_of_getLsbD_eq
    intro bit _
    rw [eligibleWord, getLsbD_from, BitVec.getLsbD_zero]
    by_cases above : (targetClass size).2 ≤ bit
    · simp [noneSeen.1 bit above]
    · simp [above]
  have noLevel : ∀ level, (targetClass size).1 < level →
      state.tlsf.l1Free.getLsbD level = false := by
    rcases seen with nonzero | ⟨level, small, above, isSet⟩ | noLevel
    · exact absurd noWord nonzero
    · rw [noneSeen.2 level above small] at isSet
      cases isSet
    · exact noLevel
  intro index serves
  rw [rep.map_eq_zero_iff]
  by_contra nonempty
  have isSet := isExact index.1 index.2 nonempty
  rcases serves with higher | ⟨sameLevel, above⟩
  · have small : index.1 < 64 := by
      obtain ⟨ptr, member⟩ := List.exists_mem_of_ne_nil _ nonempty
      obtain ⟨piece, isPiece, _, _, mapped⟩ := rep.listed_mem member
      exact (getMapping_lt mapped (rep.len_lt isPiece)).1
    have level := (rep.level1 index.1 small).mpr (ne_zero_of_getLsbD isSet)
    rw [noLevel index.1 higher] at level
    cases level
  · rw [← sameLevel, noneSeen.1 index.2 above] at isSet
    cases isSet

/-- Every such event keeps the bits exact, and an allocation that fails had no block. -/
theorem exact_step (inv : Inv baseptr space state pieces lists)
    (isExact : BitsExact state.tlsf lists) (enabled : Enabled state event)
    (keeps : KeepsBits state event) :
    ∃ next newPieces newLists, step state event = some next ∧
      Inv baseptr space next newPieces newLists ∧ BitsExact next.tlsf newLists ∧
      ∀ size answer, event = .alloc size answer → next.live = state.live →
        NoneEligible state.tlsf size := by
  cases event with
  | alloc size answer =>
      rcases inv_alloc inv enabled keeps.1 with ⟨result, noneSeen⟩ |
        ⟨next, newPieces, newLists, blk, result, isLive, newInv, newExact⟩
      · refine ⟨state, pieces, lists, result, inv, isExact, ?_⟩
        rintro _ _ ⟨⟩ _
        exact noneEligible inv.rep isExact noneSeen keeps.2
      · refine ⟨next, newPieces, newLists, result, newInv, newExact isExact, ?_⟩
        intro _ _ _ sameLive
        have lengths := congrArg List.length (isLive.symm.trans sameLive)
        simp at lengths
  | free blk =>
      obtain ⟨next, newPieces, newLists, result, newInv, newExact⟩ := inv_free inv enabled
      exact ⟨next, newPieces, newLists, result, newInv, newExact isExact keeps, nofun⟩
  | write place value =>
      exact ⟨_, pieces, lists, rfl, inv_write inv enabled, isExact, nofun⟩

theorem exact_leads (init : Init start) (leads : machine.Leads KeepsBits start state) :
    ∃ baseptr space pieces lists, Inv baseptr space state pieces lists ∧
      BitsExact state.tlsf lists := by
  induction leads with
  | refl =>
      obtain ⟨pieces, lists, inv, isExact⟩ := inv_init init
      exact ⟨_, _, pieces, lists, inv, isExact⟩
  | step _ enabled keeps result induction =>
      obtain ⟨_, _, _, _, before, beforeExact⟩ := induction
      obtain ⟨next, newPieces, newLists, isResult, newInv, newExact, _⟩ :=
        exact_step before beforeExact enabled keeps
      cases result.symm.trans isResult
      exact ⟨_, _, newPieces, newLists, newInv, newExact⟩

/-- In a run of such calls the bits agree with the lists, and an allocation fails only if
no class that serves it has a block. -/
theorem bits_agree (init : Init start) (leads : machine.Leads KeepsBits start state) :
    (∃ lists, BitsAgree state.tlsf lists) ∧ machine.Safe KeepsBits state ∧
      ∀ size answer next, Enabled state (.alloc size answer) →
        KeepsBits state (.alloc size answer) → step state (.alloc size answer) = some next →
        next.live = state.live → NoneEligible state.tlsf size := by
  obtain ⟨_, _, pieces, lists, inv, isExact⟩ := exact_leads init leads
  refine ⟨⟨lists, bitsAgree_of_inv inv isExact⟩, ?_, ?_⟩
  · intro event enabled keeps
    obtain ⟨next, _, _, result, _⟩ := exact_step inv isExact enabled keeps
    exact fun undefined => Option.some_ne_none next (result.symm.trans undefined)
  · intro size answer next enabled keeps result sameLive
    obtain ⟨other, _, _, isResult, _, _, noneEligible⟩ := exact_step inv isExact enabled keeps
    cases result.symm.trans isResult
    exact noneEligible size answer rfl sameLive

end Agreement

/-! ## A merge that hides a free block

Four blocks of 32 bytes. The first and the last one are freed and then the second, which
is merged with the first one, the last of its list. -/

section Hidden

def emptySpace : Option State :=
  (Tlsf.create (fun _ => 0) 4096 128 true 1000).map fun tlsf => ⟨tlsf, []⟩

def hidingEvents : List Event :=
  [.alloc 32 2000, .alloc 32 3000, .alloc 32 4000, .alloc 32 0, .free 1000, .free 4000,
    .free 2000]

/-- The last block is free, and no bit of its class is set. -/
def Hides (state : State) : Bool :=
  4000 ∈ state.tlsf.blklist ∧ state.tlsf.blockFree 4000 ∧
    getMapping (state.tlsf.blockLength 4000) = some (5, 0) ∧
    (state.tlsf.l2Free 5).getLsbD 0 = false

theorem hides_after_run :
    (emptySpace.bind fun state => machine.run state hidingEvents).map Hides = some true := by
  decide +kernel

theorem bits_disagree : ¬ ∀ start state, Init start →
    machine.Leads (fun _ _ => True) start state → ∃ lists, BitsAgree state.tlsf lists := by
  intro allAgree
  have isRun := hides_after_run
  rw [emptySpace, Option.map_eq_some_iff] at isRun
  obtain ⟨state, result, hides⟩ := isRun
  obtain ⟨start, isStart, isRun⟩ := Option.bind_eq_some_iff.mp result
  obtain ⟨tlsf, isCreated, isState⟩ := Option.map_eq_some_iff.mp isStart
  have init : Init start := by
    subst isState
    exact ⟨_, 4096, 128, 1000, by decide, by decide, by decide, by decide, by decide, isCreated,
      rfl⟩
  obtain ⟨lists, agree⟩ := allAgree start state init (Machine.leads_of_run isRun)
  simp only [Hides, decide_eq_true_eq] at hides
  obtain ⟨member, isFree, mapped, noBit⟩ := hides
  have listed := (agree.listed (5, 0) 4000).mpr ⟨member, isFree, mapped⟩
  rw [(agree.level2 5 0).mpr (List.ne_nil_of_mem listed)] at noBit
  cases noBit

end Hidden

theorem bits_agree_once : ∃ start state, Init start ∧
    step start (.alloc 32 0) = some state ∧ (∃ lists, BitsAgree state.tlsf lists) ∧
    machine.Safe KeepsBits state ∧
    ∀ size answer next, Enabled state (.alloc size answer) →
      KeepsBits state (.alloc size answer) → step state (.alloc size answer) = some next →
      next.live = state.live → NoneEligible state.tlsf size := by
  obtain ⟨tlsf, lists, isCreated, inv, isExact⟩ := @create_spec (fun _ => 0) 4096 128 8192
    (by decide) (by decide) (by decide) (by decide) (by decide)
  have init : Init ⟨tlsf, []⟩ :=
    ⟨_, 4096, 128, 8192, by decide, by decide, by decide, by decide, by decide, isCreated, rfl⟩
  have enabled : machine.Enabled ⟨tlsf, []⟩ (.alloc 32 0) := ⟨by decide, by decide, .inl rfl⟩
  have mapped : getMapping 128 = some (7, 0) := by decide +kernel
  have listed : 8192 ∈ lists (7, 0) := (inv.rep.listed (7, 0) 8192).mpr
    ⟨_, List.mem_cons_self, rfl, rfl, mapped⟩
  have isSet := (inv.rep.level1 7 (by decide)).mpr
    (ne_zero_of_getLsbD (isExact 7 0 (List.ne_nil_of_mem listed)))
  have keeps : KeepsBits ⟨tlsf, []⟩ (.alloc 32 0) :=
    ⟨⟨by decide +kernel, .inl (by decide +kernel)⟩,
      .inr (.inl ⟨7, by decide, by decide +kernel, isSet⟩)⟩
  obtain ⟨state, _, _, result, _⟩ :=
    @exact_step _ _ _ _ _ (.alloc 32 0) inv isExact enabled keeps
  exact ⟨_, state, init, result, bits_agree init (.step .refl enabled keeps result)⟩

end MallocSurvey.Tlsf1.Externalised
