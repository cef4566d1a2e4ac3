import MallocSurvey.Library.Bits
import MallocSurvey.Library.LogLinear
import MallocSurvey.Tlsf1.Accounting

/-! # The available space

`tlsf_avail_space` looks at the highest bits of the two levels, `tlsf_ext_alloc` at the
lowest of those that serve it, of which it sees the lower half of a word. -/

namespace MallocSurvey.Tlsf1

open Library

/-- The position of the highest set bit counted from one. -/
def Tlsf.flsl (word : BitVec 64) : Nat := if word = 0#64 then 0 else bsr word + 1

/-- `tlsf_avail_space` -/
def Tlsf.availSpace (tlsf : Tlsf) : Option Nat :=
  let fli := flsl tlsf.l1Free
  if fli = 0 then some 0
  else
    let sli := flsl (tlsf.l2Free (fli - 1))
    if sli = 0 then some 0
    else
      let blk := tlsf.map (fli - 1, sli - 1)
      if 32 < sli ∨ blk = 0 then none
      else
        -- rounded down as the size of the space is by `tlsf_create`
        let len := roundedSpace (tlsf.blockLength blk)
        if len = 0 ∨ Nat.log2 len < sliShift then none
        else some (subWord (addWord len 1) (1 <<< (Nat.log2 len - sliShift)))

/-! ## Classes -/

section Classes

variable {len size : Nat}

theorem class_logLinear (large : mbs ≤ len) :
    LogLinear.level 0 5 len = (classOf len).1 - 4 ∧ LogLinear.part 0 5 len = (classOf len).2 := by
  have level := five_le_log2 large
  have notSmall : ¬ len < 2 ^ (0 + 5) := Nat.not_lt.mpr large
  have split : 2 ^ Nat.log2 len = 2 ^ (Nat.log2 len - 5) * 32 := by
    rw [show (32 : Nat) = 2 ^ 5 from rfl, ← Nat.pow_add]
    congr 1
    omega
  unfold LogLinear.level LogLinear.part classOf
  rw [if_neg notSmall, if_neg notSmall, split, Nat.sub_mul_div]
  exact ⟨by simp only; omega, rfl⟩

theorem serves_iff_index (large : mbs ≤ len) (otherLarge : mbs ≤ size) :
    Serves (classOf len) (classOf size) ↔
      LogLinear.index 0 5 len ≤ LogLinear.index 0 5 size := by
  obtain ⟨isLevel, isPart⟩ := class_logLinear large
  obtain ⟨otherLevel, otherPart⟩ := class_logLinear otherLarge
  have level := five_le_log2 large
  have level' := five_le_log2 otherLarge
  rw [LogLinear.index_lex, isLevel, isPart, otherLevel, otherPart, Serves]
  have first : (classOf len).1 = Nat.log2 len := rfl
  have second : (classOf size).1 = Nat.log2 size := rfl
  omega

theorem target_eq_roundUp (positive : 0 < size) :
    target size = LogLinear.roundUp 5 (wanted size) := by
  have large := mbs_le_wanted positive
  have granule : 0 < 2 ^ (Nat.log2 (wanted size) - 5) := Nat.two_pow_pos _
  unfold target LogLinear.roundUp sliShift
  rw [if_pos (show 2 ^ 5 ≤ wanted size from large)]
  omega

/-- What the available space is computed to from the length of a block. -/
def availOf (len : Nat) : Nat := len / mbs * mbs + 1 - 2 ^ (Nat.log2 len - 5)

/-- A request of at most the available space is rounded up to the start of the class. -/
theorem wanted_le_floor (large : mbs ≤ len) (positive : 0 < size) (le : size ≤ availOf len) :
    wanted size ≤ len / 2 ^ (Nat.log2 len - 5) * 2 ^ (Nat.log2 len - 5) := by
  have level := five_le_log2 large
  unfold availOf at le
  unfold wanted
  unfold mbs at *
  by_cases fine : Nat.log2 len < 10
  · -- the granules divide `TLSF_MBS`
    have cases : Nat.log2 len = 5 ∨ Nat.log2 len = 6 ∨ Nat.log2 len = 7 ∨ Nat.log2 len = 8 ∨
        Nat.log2 len = 9 := by omega
    rcases cases with isLog | isLog | isLog | isLog | isLog
    · rw [isLog] at le ⊢
      omega
    · rw [isLog] at le ⊢
      omega
    · rw [isLog] at le ⊢
      omega
    · rw [isLog] at le ⊢
      omega
    · rw [isLog] at le ⊢
      omega
  · have split : 2 ^ (Nat.log2 len - 5) = 32 * 2 ^ (Nat.log2 len - 10) := by
      rw [show (32 : Nat) = 2 ^ 5 from rfl, ← Nat.pow_add]
      congr 1
      omega
    have divided := Nat.div_add_mod len (2 ^ (Nat.log2 len - 5))
    have remainder := Nat.mod_lt len (Nat.two_pow_pos (Nat.log2 len - 5))
    have multiple : len / 2 ^ (Nat.log2 len - 5) * 2 ^ (Nat.log2 len - 5) =
        32 * (2 ^ (Nat.log2 len - 10) * (len / 2 ^ (Nat.log2 len - 5))) := by
      rw [Nat.mul_comm, ← Nat.mul_assoc, ← split]
    rw [Nat.mul_comm] at divided
    omega

/-- A request of at most the available space is served by the class of the block. -/
theorem serves_of_le_avail (large : mbs ≤ len) (small : len < 2 ^ 64) (positive : 0 < size)
    (le : size ≤ availOf len) :
    Serves (targetClass size) (classOf len) ∧ target size < 2 ^ 64 := by
  have lowest : 2 ^ (0 + 5) ≤ len := large
  have floor := wanted_le_floor large positive le
  have targetLarge := (mbs_le_wanted positive).trans (wanted_le_target size)
  rw [← LogLinear.start_of_large lowest] at floor
  have index := LogLinear.index_roundUp_le (LogLinear.part_lt len) floor
  rw [← target_eq_roundUp positive] at index
  have inClass : LogLinear.index 0 5 (target size) ≤ LogLinear.index 0 5 len := index
  refine ⟨(serves_iff_index targetLarge large).mpr inClass, ?_⟩
  have top : LogLinear.level 0 5 len < 59 + 1 := LogLinear.level_lt_iff.mpr small
  rw [LogLinear.index_lex] at inClass
  exact LogLinear.level_lt_iff.mp (show LogLinear.level 0 5 (target size) < 59 + 1 by omega)

/-- The least request whose class is the last one of a level. -/
def lastOf (level : Nat) : Nat := 62 * 2 ^ (level - 5) + 1

theorem granules {level : Nat} (high : 10 ≤ level) :
    2 ^ level = 32 * 2 ^ (level - 5) ∧ 2 ^ (level - 5) = 32 * 2 ^ (level - 10) := by
  have first : level = 5 + (level - 5) := by omega
  have second : level - 5 = 5 + (level - 10) := by omega
  constructor
  · conv_lhs => rw [first, Nat.pow_add]
  · conv_lhs => rw [second, Nat.pow_add]

theorem target_lastOf {level : Nat} (high : 10 ≤ level) :
    target (lastOf level) = 63 * 2 ^ (level - 5) + 31 := by
  obtain ⟨isPower, isGranule⟩ := granules high
  have positive : 0 < 2 ^ (level - 10) := Nat.two_pow_pos _
  have isWanted : wanted (lastOf level) = 62 * 2 ^ (level - 5) + 32 := by
    unfold wanted lastOf mbs
    omega
  have isLog : Nat.log2 (62 * 2 ^ (level - 5) + 32) = level := by
    rw [Nat.log2_eq_iff (by omega), Nat.pow_succ]
    omega
  unfold target sliShift
  rw [isWanted, isLog]
  omega

theorem targetClass_lastOf {level : Nat} (high : 10 ≤ level) :
    targetClass (lastOf level) = (level, 31) := by
  obtain ⟨isPower, isGranule⟩ := granules high
  have positive : 0 < 2 ^ (level - 10) := Nat.two_pow_pos _
  have isLog : Nat.log2 (63 * 2 ^ (level - 5) + 31) = level := by
    rw [Nat.log2_eq_iff (by omega), Nat.pow_succ]
    omega
  have isPart : (63 * 2 ^ (level - 5) + 31 - 2 ^ level) / 2 ^ (level - 5) = 31 := by
    rw [Nat.div_eq_iff (by omega)]
    omega
  unfold targetClass classOf
  rw [target_lastOf high, isLog, isPart]

theorem lastOf_le_avail {level : Nat} (high : 10 ≤ level) (above : 2 ^ (level + 1) ≤ len) :
    lastOf level ≤ availOf len := by
  have nonzero : len ≠ 0 := LogLinear.ne_zero_of_le above
  have up : level + 1 ≤ Nat.log2 len := (Nat.le_log2 nonzero).mpr above
  have low := Nat.log2_self_le nonzero
  obtain ⟨isPower, isGranule⟩ := granules (show 10 ≤ Nat.log2 len by omega)
  have step : 2 ^ (level + 1 - 5) ≤ 2 ^ (Nat.log2 len - 5) :=
    Nat.pow_le_pow_right (by decide) (by omega)
  have double : 2 ^ (level + 1 - 5) = 2 ^ (level - 5) * 2 := by
    rw [← Nat.pow_succ]
    congr 1
    omega
  unfold availOf lastOf mbs
  omega

end Classes

/-! ## The promise -/

namespace Externalised

/-- Every request of at most the available space succeeds. -/
def Promised (tlsf : Tlsf) : Prop :=
  ∃ avail, tlsf.availSpace = some avail ∧
    ∀ size answer, 0 < size → size ≤ avail → AnswersHeader tlsf answer →
      ∃ blk next, tlsf.extAlloc size answer = some (blk, next) ∧ blk ≠ 0

/-- Below every level with free blocks, those from the 31st on have a free block in the
last class. -/
def LevelsFull (tlsf : Tlsf) : Prop :=
  ∀ level higher, 31 ≤ level → level < higher → tlsf.l1Free.getLsbD higher = true →
    (tlsf.l2Free level).getLsbD 31 = true

variable {state start : State} {pieces : List Piece} {lists : Nat × Nat → List Nat}
  {baseptr space : Nat}

theorem flsl_of_ne {word : BitVec 64} (nonzero : word ≠ 0#64) : Tlsf.flsl word = bsr word + 1 :=
  if_neg nonzero

/-- The block that the available space is computed from. -/
theorem availSpace_spec (rep : Rep state.tlsf pieces lists) (nonzero : state.tlsf.l1Free ≠ 0#64) :
    ∃ piece ∈ pieces, state.tlsf.availSpace = some (availOf piece.len) ∧
      (classOf piece.len).1 = bsr state.tlsf.l1Free ∧
      (state.tlsf.l2Free (classOf piece.len).1).getLsbD (classOf piece.len).2 = true := by
  generalize isLevel : bsr state.tlsf.l1Free = level
  have levelSet : state.tlsf.l1Free.getLsbD level = true := isLevel ▸ getLsbD_bsr nonzero
  have wordNonzero := (rep.level1 level (lt_width_of_getLsbD levelSet)).mp levelSet
  generalize isPart : bsr (state.tlsf.l2Free level) = sli
  have sliSet : (state.tlsf.l2Free level).getLsbD sli = true := isPart ▸ getLsbD_bsr wordNonzero
  have sliLt := rep.bit_small sliSet
  have headNonzero : state.tlsf.map (level, sli) ≠ 0 := fun isZero =>
    rep.level2 level sli sliSet ((rep.map_eq_zero_iff _).mp isZero)
  obtain ⟨piece, isPiece, isPtr, _, mapped⟩ := rep.listed_mem (rep.map_mem headNonzero)
  obtain ⟨_, large⟩ := rep.length piece isPiece
  have small := rep.len_lt isPiece
  have isClass : classOf piece.len = (level, sli) :=
    Option.some.inj ((mapped_classOf large).symm.trans mapped)
  have sameLevel : Nat.log2 piece.len = level := congrArg Prod.fst isClass
  refine ⟨piece, isPiece, ?_, congrArg Prod.fst isClass, by rw [isClass]; exact sliSet⟩
  have five := five_le_log2 large
  have pieceNonzero : piece.len ≠ 0 := by
    unfold mbs at large
    omega
  have roundedLog : Nat.log2 (piece.len / mbs * mbs) = level := by
    obtain ⟨low, high⟩ := LogLinear.log2_bounds pieceNonzero
    rw [sameLevel] at low high five
    have multiple : 2 ^ level = 2 ^ (level - 5) * 32 := by
      rw [show (32 : Nat) = 2 ^ 5 from rfl, ← Nat.pow_add]
      congr 1
      omega
    have roundedLow : 2 ^ level ≤ piece.len / mbs * mbs := by
      rw [multiple] at low ⊢
      exact Nat.mul_le_mul_right _ ((Nat.le_div_iff_mul_le (by decide)).mpr low)
    have rounded := Nat.div_mul_le_self piece.len mbs
    rw [Nat.log2_eq_iff (LogLinear.ne_zero_of_le roundedLow)]
    omega
  have granule : 2 ^ (level - sliShift) ≤ piece.len / mbs * mbs := by
    have roundedNonzero : piece.len / mbs * mbs ≠ 0 := by
      unfold mbs at *
      omega
    have low := Nat.log2_self_le roundedNonzero
    rw [roundedLog] at low
    exact (Nat.pow_le_pow_right (by decide) (Nat.sub_le _ _)).trans low
  have rounded := Nat.div_mul_le_self piece.len mbs
  unfold Tlsf.availSpace
  rw [flsl_of_ne nonzero, isLevel, if_neg (Nat.succ_ne_zero _), Nat.add_sub_cancel,
    flsl_of_ne wordNonzero, isPart]
  dsimp only
  rw [if_neg (Nat.succ_ne_zero _), Nat.add_sub_cancel, if_neg (by omega), ← isPtr,
    rep.blockLength isPiece, Tlsf.roundedSpace_eq small, roundedLog, Nat.one_shiftLeft]
  rw [if_neg (by unfold sliShift mbs at *; omega)]
  rw [addWord_of_lt (by unfold mbs at *; omega), subWord_of_le (by omega) (by unfold mbs at *; omega),
    availOf, sameLevel, sliShift]

/-- A request that a class with a block serves is defined and succeeds, if the class is seen. -/
theorem extAlloc_succeeds (inv : Inv baseptr space state pieces lists) {size answer : Nat}
    {index : Nat × Nat} (positive : 0 < size) (targetLt : target size < 2 ^ 64)
    (serves : Serves (targetClass size) index) (small : index.1 < 64)
    (isSet : (state.tlsf.l2Free index.1).getLsbD index.2 = true)
    (seen : ¬ NoneSeen state.tlsf (targetClass size).1 (targetClass size).2)
    (answers : AnswersHeader state.tlsf answer) :
    ∃ blk next, state.tlsf.extAlloc size answer = some (blk, next) ∧ blk ≠ 0 := by
  have large := (mbs_le_wanted positive).trans (wanted_le_target size)
  have targetNonzero : target size ≠ 0 := by
    unfold mbs at large
    omega
  have isDefined : state.tlsf.AllocDefined size := by
    refine ⟨targetLt, ?_⟩
    rcases serves with higher | ⟨same, above⟩
    · left
      rw [← Nat.log2_lt targetNonzero]
      have isLog : (targetClass size).1 = Nat.log2 (target size) := rfl
      omega
    · right
      have isBit : (eligibleWord state.tlsf size).getLsbD index.2 = true := by
        rw [eligibleWord, getLsbD_from, same, isSet]
        simpa using above
      exact ne_zero_of_getLsbD isBit
  have answersToo : ∀ index piece,
      state.tlsf.findClass (targetClass size).1 (targetClass size).2 = some (some index) →
      state.tlsf.map index = piece.ptr → piece ∈ pieces → piece.free = true →
      wanted size + (0 + mbs) ≤ piece.len →
      AnswersHeader (state.tlsf.unlinkBlock piece.ptr index) answer := by
    intro index piece _ _ _ _ _
    unfold AnswersHeader
    rw [sameSpace_unlinkBlock.blklist]
    exact answers
  rcases physical_external.extAlloc_spec inv.external inv.rep positive isDefined answersToo with
    ⟨_, noneSeen⟩ | ⟨before, piece, after, next, _, _, isSplit, _, result, _⟩
  · exact absurd noneSeen seen
  · exact ⟨piece.ptr, next, result, (inv.rep.pointer piece (by rw [isSplit]; simp)).1⟩

/-- The class of the block is seen from below it. -/
theorem seen_of_levelsFull (rep : Rep state.tlsf pieces lists) (full : LevelsFull state.tlsf)
    {wanted found : Nat × Nat} (serves : Serves wanted found) (wantedLt : wanted.2 < 32)
    (small : found.1 < 64) (isSet : (state.tlsf.l2Free found.1).getLsbD found.2 = true) :
    ¬ NoneSeen state.tlsf wanted.1 wanted.2 := by
  rintro ⟨noneOnLevel, noneAbove⟩
  have levelSet := (rep.level1 found.1 small).mpr (ne_zero_of_getLsbD isSet)
  rcases serves with higher | ⟨same, above⟩
  · by_cases lower : found.1 < 32
    · rw [noneAbove found.1 higher lower] at levelSet
      cases levelSet
    · by_cases lowHalf : wanted.1 < 31
      · have lastSet := full 31 found.1 (Nat.le_refl 31) (by omega) levelSet
        have seen := (rep.level1 31 (by decide)).mpr (ne_zero_of_getLsbD lastSet)
        rw [noneAbove 31 lowHalf (by decide)] at seen
        cases seen
      · have lastSet := full wanted.1 found.1 (by omega) higher levelSet
        rw [noneOnLevel 31 (by omega)] at lastSet
        cases lastSet
  · rw [← same, noneOnLevel found.2 above] at isSet
    cases isSet

/-- Nothing is found from the last class of a level of the upper half on if it is empty. -/
theorem findClass_last {tlsf : Tlsf} {level : Nat} (high : 31 ≤ level) (small : level < 63)
    (clear : (tlsf.l2Free level).getLsbD 31 = false) :
    tlsf.findClass level 31 = some none := by
  have onLevel : Tlsf.ffsl (tlsf.l2Free level &&& BitVec.allOnes 64 <<< 31) = 0 := by
    rw [ffsl_eq_zero_iff]
    intro bit below
    rw [getLsbD_from]
    by_cases last : bit = 31
    · rw [last, clear]
      rfl
    · have lower : ¬ 31 ≤ bit := by omega
      simp [lower]
  have above : Tlsf.ffsl (tlsf.l1Free &&& BitVec.allOnes 64 <<< (level + 1)) = 0 := by
    rw [ffsl_eq_zero_iff]
    intro bit below
    have lower : ¬ level + 1 ≤ bit := by omega
    rw [getLsbD_from]
    simp [lower]
  unfold Tlsf.findClass
  dsimp only
  rw [if_neg (not_not.mpr onLevel), if_neg (by omega), if_pos above]

theorem promised_of_inv (inv : Inv baseptr space state pieces lists) :
    Promised state.tlsf ↔ LevelsFull state.tlsf := by
  have rep := inv.rep
  by_cases empty : state.tlsf.l1Free = 0#64
  · have noSpace : state.tlsf.availSpace = some 0 := by
      unfold Tlsf.availSpace Tlsf.flsl
      rw [if_pos empty]
      rfl
    refine iff_of_true ⟨0, noSpace, fun size _ positive none => by omega⟩ ?_
    intro level higher _ _ isSet
    rw [empty] at isSet
    simp at isSet
  · obtain ⟨piece, isPiece, isAvail, isLevel, isSet⟩ := availSpace_spec rep empty
    have large := (rep.length piece isPiece).2
    have topLt : (classOf piece.len).1 < 64 := by
      rw [isLevel]
      exact lt_width_of_getLsbD (getLsbD_bsr empty)
    constructor
    · rintro ⟨avail, sameAvail, succeeds⟩ level higher high above levelSet
      cases isAvail.symm.trans sameAvail
      by_contra clear
      have top : higher ≤ (classOf piece.len).1 := isLevel ▸ le_bsr levelSet
      have pieceNonzero : piece.len ≠ 0 := by
        unfold mbs at large
        omega
      have isTop : (classOf piece.len).1 = Nat.log2 piece.len := rfl
      have longer : 2 ^ (level + 1) ≤ piece.len :=
        (Nat.pow_le_pow_right (by decide) (by omega)).trans (Nat.log2_self_le pieceNonzero)
      have fits := lastOf_le_avail (show 10 ≤ level by omega) longer
      have positive : 0 < lastOf level := Nat.succ_pos _
      have targetLt := (serves_of_le_avail large (rep.len_lt isPiece) positive fits).2
      obtain ⟨blk, next, result, nonzero⟩ := succeeds (lastOf level) 0 positive fits (.inl rfl)
      rw [extAlloc_eq positive targetLt,
        targetClass_lastOf (show 10 ≤ level by omega),
        findClass_last high (by omega) (Bool.eq_false_of_not_eq_true clear)] at result
      cases result
      exact nonzero rfl
    · intro full
      refine ⟨_, isAvail, ?_⟩
      intro size answer positive le answers
      obtain ⟨serves, targetLt⟩ := serves_of_le_avail large (rep.len_lt isPiece) positive le
      have wantedLt : (targetClass size).2 < 32 :=
        (getMapping_lt (mapped_classOf ((mbs_le_wanted positive).trans (wanted_le_target size)))
          targetLt).2
      exact extAlloc_succeeds inv positive targetLt serves topLt isSet
        (seen_of_levelsFull rep full serves wantedLt topLt isSet) answers

/-- In a run without wrapping sizes every request of at most the available space succeeds if
and only if `ffsl`, which looks at the lower half of a word, need not see a level of the
upper half. -/
theorem promised_iff (init : Init start) (leads : machine.Leads Accountable start state) :
    Promised state.tlsf ↔ LevelsFull state.tlsf := by
  obtain ⟨pieces, lists, inv⟩ := inv_leads init leads
  exact promised_of_inv inv

theorem promised_iff_small : ∃ start, Init start ∧
    (Promised start.tlsf ↔ LevelsFull start.tlsf) := by
  obtain ⟨tlsf, _, isCreated, _⟩ := @create_spec (fun _ => 0) 4096 128 8192
    (by decide) (by decide) (by decide) (by decide) (by decide)
  have init : Init ⟨tlsf, []⟩ :=
    ⟨_, 4096, 128, 8192, by decide, by decide, by decide, by decide, by decide, isCreated, rfl⟩
  exact ⟨⟨tlsf, []⟩, init, promised_iff init .refl⟩

/-- In a new space of eight gigabytes the block is on level 33. -/
theorem largeSpace_unavailable : ¬ ∀ start state, Init start →
    machine.Leads (fun _ _ => True) start state → Promised state.tlsf := by
  intro allPromised
  obtain ⟨tlsf, lists, isCreated, inv, isExact⟩ := @create_spec (fun _ => 0) 4096 (2 ^ 33) 8192
    (by decide) (by decide) (by decide) (by decide) (by decide)
  have init : Init ⟨tlsf, []⟩ :=
    ⟨_, 4096, 2 ^ 33, 8192, by decide, by decide, by decide, by decide, by decide, isCreated, rfl⟩
  have mapped : getMapping (2 ^ 33 / mbs * mbs) = some (33, 0) := by decide +kernel
  have listed : 8192 ∈ lists (33, 0) := (inv.rep.listed (33, 0) 8192).mpr
    ⟨_, List.mem_cons_self, rfl, rfl, mapped⟩
  have levelSet := (inv.rep.level1 33 (by decide)).mpr
    (ne_zero_of_getLsbD (isExact 33 0 (List.ne_nil_of_mem listed)))
  have lastSet := (promised_of_inv inv).mp (allPromised _ _ init .refl) 31 33 (Nat.le_refl 31)
    (by decide) levelSet
  obtain ⟨ptr, member⟩ := List.exists_mem_of_ne_nil _ (inv.rep.level2 31 31 lastSet)
  obtain ⟨piece, isPiece, _, _, otherClass⟩ := inv.rep.listed_mem member
  rw [List.mem_singleton.mp isPiece, mapped] at otherClass
  cases otherClass

end Externalised

end MallocSurvey.Tlsf1
