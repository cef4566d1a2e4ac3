import MallocSurvey.Tlsf1.Merging

/-! # Taking blocks

`tlsf_ext_alloc` looks for a class that serves the request, removes its first block and
splits it if enough is left. -/

namespace MallocSurvey.Tlsf1

open Library

/-- The request rounded up to a multiple of `TLSF_MBS`, without wrapping around. -/
def wanted (size : Nat) : Nat := (size + (mbs - 1)) / mbs * mbs

/-- The size that is looked for, without wrapping around. -/
def target (size : Nat) : Nat := wanted size + 2 ^ (Nat.log2 (wanted size) - sliShift) - 1

/-- The least class whose blocks serve a request. -/
def targetClass (size : Nat) : Nat × Nat := classOf (target size)

/-- The bits of the classes of the first level that serve a request. -/
def eligibleWord (tlsf : Tlsf) (size : Nat) : BitVec 64 :=
  tlsf.l2Free (targetClass size).1 &&& BitVec.allOnes 64 <<< (targetClass size).2

/-- No sum wraps around and no shift is by the width of the word. -/
def Tlsf.AllocDefined (tlsf : Tlsf) (size : Nat) : Prop :=
  target size < 2 ^ 64 ∧ (target size < 2 ^ 63 ∨ eligibleWord tlsf size ≠ 0#64)

theorem wanted_mod (size : Nat) : wanted size % 2 = 0 := by
  unfold wanted mbs
  omega

theorem le_wanted (size : Nat) : size ≤ wanted size := by
  unfold wanted mbs
  omega

theorem mbs_le_wanted {size : Nat} (positive : 0 < size) : mbs ≤ wanted size := by
  unfold wanted mbs
  omega

theorem wanted_le_target (size : Nat) : wanted size ≤ target size := by
  have positive : 0 < 2 ^ (Nat.log2 (wanted size) - sliShift) := Nat.two_pow_pos _
  unfold target
  omega

/-- The multiple of the class granularity that is added is at least one. -/
theorem roundup2_of_target {size : Nat} (small : target size < 2 ^ 64) :
    roundup2 size = wanted size := by
  have below := wanted_le_target size
  have modulus : wanted size % mbs = 0 := by
    unfold wanted
    exact Nat.mul_mod_left _ _
  have rounded : size + (mbs - 1) < wanted size + mbs := by
    unfold wanted mbs
    omega
  have bound : wanted size + mbs ≤ 2 ^ 64 := by
    unfold mbs at modulus ⊢
    omega
  rw [roundup2, addWord_of_lt (by omega), wanted]

/-- The sum may be `2 ^ 64` before one is subtracted. -/
theorem subWord_addWord {left right : Nat} (positive : 0 < left + right)
    (small : left + right - 1 < 2 ^ 64) :
    subWord (addWord left right) 1 = left + right - 1 := by
  unfold addWord subWord
  omega

theorem roundedTarget_eq {size : Nat} (positive : 0 < size) (small : target size < 2 ^ 64) :
    roundedTarget (wanted size) = some (target size) := by
  have large := mbs_le_wanted positive
  have nonzero : wanted size ≠ 0 := by
    unfold mbs at large
    omega
  have level := five_le_log2 large
  have granule : 0 < 2 ^ (Nat.log2 (wanted size) - sliShift) := Nat.two_pow_pos _
  have half : 2 ^ (Nat.log2 (wanted size) - sliShift) ≤ wanted size :=
    (Nat.pow_le_pow_right (by decide) (Nat.sub_le _ _)).trans (log2_bounds nonzero).1
  unfold target at small
  rw [roundedTarget, if_neg (by unfold sliShift; omega), Nat.shiftLeft_eq, Nat.one_mul, target]
  rw [subWord_addWord (by omega) small]

/-! ## Finding a class -/

theorem ffsl_eq_zero_iff (word : BitVec 64) :
    Tlsf.ffsl word = 0 ↔ ∀ bit < 32, word.getLsbD bit = false := by
  unfold Tlsf.ffsl
  cases isFound : (List.range 32).find? fun bit => word.getLsbD bit with
  | none =>
      rw [List.find?_range_eq_none] at isFound
      simpa using isFound
  | some bit =>
      rw [List.find?_range_eq_some] at isFound
      refine iff_of_false (Nat.succ_ne_zero _) ?_
      intro noBit
      rw [noBit bit (List.mem_range.mp isFound.2.1)] at isFound
      cases isFound.1

theorem getLsbD_ffsl {word : BitVec 64} (found : Tlsf.ffsl word ≠ 0) :
    word.getLsbD (Tlsf.ffsl word - 1) = true ∧ Tlsf.ffsl word - 1 < 32 := by
  unfold Tlsf.ffsl at found ⊢
  cases isFound : (List.range 32).find? fun bit => word.getLsbD bit with
  | none =>
      rw [isFound] at found
      exact absurd rfl found
  | some bit =>
      rw [List.find?_range_eq_some] at isFound
      exact ⟨isFound.1, List.mem_range.mp isFound.2.1⟩

theorem getLsbD_from (word : BitVec 64) (bit start : Nat) :
    (word &&& BitVec.allOnes 64 <<< start).getLsbD bit =
      (word.getLsbD bit && decide (start ≤ bit)) := by
  rw [BitVec.getLsbD_and, BitVec.getLsbD_shiftLeft, BitVec.getLsbD_allOnes]
  by_cases small : bit < 64
  · by_cases above : start ≤ bit
    · simp [small, above, Nat.not_lt.mpr above, Nat.lt_of_le_of_lt (Nat.sub_le _ _) small]
    · simp [small, above, Nat.lt_of_not_le above]
  · simp [small, BitVec.getLsbD_of_ge word bit (Nat.le_of_not_lt small)]

section Finding

variable {tlsf : Tlsf} {pieces : List Piece} {lists : Nat × Nat → List Nat} {fli sli : Nat}

theorem Rep.bit_small (rep : Rep tlsf pieces lists) {bit : Nat}
    (isSet : (tlsf.l2Free fli).getLsbD bit = true) : bit < 32 := by
  obtain ⟨ptr, member⟩ := List.exists_mem_of_ne_nil _ (rep.level2 fli bit isSet)
  obtain ⟨piece, isPiece, _, _, mapped⟩ := rep.listed_mem member
  exact (getMapping_lt mapped (rep.len_lt isPiece)).2

/-- No bit is set for a class that serves the request, as far as `ffsl` looks. -/
def NoneSeen (tlsf : Tlsf) (fli sli : Nat) : Prop :=
  (∀ bit, sli ≤ bit → (tlsf.l2Free fli).getLsbD bit = false) ∧
    ∀ level, fli < level → level < 32 → tlsf.l1Free.getLsbD level = false

theorem findClass_spec (rep : Rep tlsf pieces lists)
    (isDefined : fli + 1 < 64 ∨ tlsf.l2Free fli &&& BitVec.allOnes 64 <<< sli ≠ 0#64) :
    tlsf.findClass fli sli = some none ∧ NoneSeen tlsf fli sli ∨
      ∃ index, tlsf.findClass fli sli = some (some index) ∧ Serves (fli, sli) index ∧
        lists index ≠ [] := by
  unfold Tlsf.findClass
  by_cases onLevel : Tlsf.ffsl (tlsf.l2Free fli &&& BitVec.allOnes 64 <<< sli) = 0
  · have noneOnLevel : ∀ bit, sli ≤ bit → (tlsf.l2Free fli).getLsbD bit = false := by
      intro bit above
      rw [← Bool.not_eq_true]
      intro isSet
      have noBit := (ffsl_eq_zero_iff _).mp onLevel bit (rep.bit_small isSet)
      rw [getLsbD_from, isSet] at noBit
      simp [above] at noBit
    have isZero : tlsf.l2Free fli &&& BitVec.allOnes 64 <<< sli = 0#64 := by
      apply BitVec.eq_of_getLsbD_eq
      intro bit _
      rw [getLsbD_from, BitVec.getLsbD_zero]
      by_cases above : sli ≤ bit
      · simp [noneOnLevel bit above]
      · simp [above]
    have small := isDefined.resolve_right (not_not.mpr isZero)
    rw [if_neg (not_not.mpr onLevel), if_neg (Nat.not_le.mpr small)]
    by_cases higher : Tlsf.ffsl (tlsf.l1Free &&& BitVec.allOnes 64 <<< (fli + 1)) = 0
    · left
      refine ⟨if_pos higher, noneOnLevel, ?_⟩
      intro level above levelLt
      have noBit := (ffsl_eq_zero_iff _).mp higher level levelLt
      rw [getLsbD_from] at noBit
      simpa [Nat.succ_le_of_lt above] using noBit
    · right
      obtain ⟨isSet, levelLt⟩ := getLsbD_ffsl higher
      dsimp only
      rw [if_neg higher]
      generalize Tlsf.ffsl (tlsf.l1Free &&& BitVec.allOnes 64 <<< (fli + 1)) - 1 = level at *
      rw [getLsbD_from, Bool.and_eq_true, decide_eq_true_eq] at isSet
      have nonzero := (rep.level1 level (by omega)).mp isSet.1
      have found : Tlsf.ffsl (tlsf.l2Free level) ≠ 0 := by
        intro notFound
        apply nonzero
        apply BitVec.eq_of_getLsbD_eq
        intro bit _
        rw [BitVec.getLsbD_zero, ← Bool.not_eq_true]
        intro isSet
        rw [(ffsl_eq_zero_iff _).mp notFound bit (rep.bit_small isSet)] at isSet
        cases isSet
      rw [if_neg found]
      exact ⟨_, rfl, .inl (Nat.lt_of_succ_le isSet.2), rep.level2 _ _ (getLsbD_ffsl found).1⟩
  · right
    have isSet := (getLsbD_ffsl onLevel).1
    rw [getLsbD_from, Bool.and_eq_true, decide_eq_true_eq] at isSet
    dsimp only
    rw [if_pos onLevel]
    exact ⟨_, rfl, .inr ⟨rfl, isSet.2⟩, rep.level2 _ _ isSet.1⟩

end Finding

/-! ## Taking a block -/

section Taking

variable {gap : Nat} {layout : Tlsf → List Piece → Prop}
  {Splits : Tlsf → Piece → Nat → Nat → Prop} {tlsf : Tlsf}
  {before after pieces : List Piece} {piece : Piece}
  {lists : Nat × Nat → List Nat} {index : Nat × Nat} {size answer : Nat}

theorem Rep.head_prev (rep : Rep tlsf pieces lists) (nonzero : tlsf.map index ≠ 0) :
    tlsf.field (tlsf.map index) .prev = 0 :=
  ((rep.linked index).prev_eq_before_iff (rep.nodup index) (rep.zero_not_listed index)
    (rep.map_mem nonzero)).mpr (rep.heads index).symm

theorem removeBlock_head (nonzero : tlsf.map index ≠ 0) :
    tlsf.removeBlock 0 index = some (tlsf.map index, tlsf.unlinkBlock (tlsf.map index) index) := by
  rw [Tlsf.removeBlock, if_pos rfl]
  exact if_neg nonzero

/-- Splitting the removed block and inserting the rest. -/
theorem Physical.split_spec (physical : Physical gap layout Splits)
    (isLayout : layout tlsf (before ++ piece :: after))
    (rep : Rep tlsf (before ++ piece :: after) lists) (isUsed : piece.free = false)
    (even : size % 2 = 0) (large : mbs ≤ size) (leaves : size + (gap + mbs) ≤ piece.len)
    (splits : Splits tlsf piece size answer) :
    ∃ rem mid next middle newLists, tlsf.splitBlock piece.ptr size answer = (rem, mid) ∧
      (if rem ≠ 0 then mid.insertBlock rem else some mid) = some next ∧
      Obtained gap size piece middle ∧ layout next (before ++ middle ++ after) ∧
      Rep next (before ++ middle ++ after) newLists ∧
      (∀ place, Untouched (before ++ piece :: after) place →
        Untouched (before ++ middle ++ after) place →
        next.memory place = tlsf.memory place) ∧
      (BitsExact tlsf lists → BitsExact next newLists) := by
  have front : Rep tlsf ([piece] ++ (before ++ after)) lists := rep.perm List.perm_middle
  have pieceLength := front.length piece List.mem_cons_self
  have gapEven := physical.gap_even
  have onlyUsed : ∀ other ∈ [piece], other.free = false := by
    intro other member
    rw [List.mem_singleton.mp member, isUsed]
  obtain ⟨rem, mid, isSplit, ⟨isNull, midLayout, relaid, memory⟩ |
    ⟨nonzero, remLt, midLayout, relaid, spaced, memory⟩⟩ :=
    physical.split isLayout rep isUsed even large leaves splits
  · -- there is no header for the rest
    refine ⟨rem, mid, mid, [piece], lists, isSplit, if_neg (not_not.mpr isNull),
      ⟨by omega, .inl (by rw [Piece.used_eq isUsed])⟩, ?_, ?_,
      fun place untouched _ => memory place untouched, ?_⟩
    · rwa [List.append_assoc, List.singleton_append]
    · rw [List.append_assoc, List.singleton_append]
      apply Rep.perm _ List.perm_middle.symm
      exact front.relayout relaid onlyUsed onlyUsed front.spaced
        (fun other member => front.pointer other (List.mem_append_left _ member))
        (fun other member => front.length other (List.mem_append_left _ member)) front.total
    · intro isExact fli sli nonempty
      rw [relaid.lists.l2Free]
      exact isExact fli sli nonempty
  · have newsUsed : ∀ other ∈ ([⟨piece.ptr, size, false⟩,
        ⟨rem, piece.len - size - gap, false⟩] : List Piece), other.free = false := by
      simp
    have midRep := front.relayout relaid onlyUsed newsUsed spaced
      (by
        intro other member
        simp only [List.mem_cons, List.not_mem_nil, or_false] at member
        rcases member with isFirst | isSecond
        · rw [isFirst]
          exact front.pointer piece List.mem_cons_self
        · rw [isSecond]
          exact ⟨nonzero, remLt⟩)
      (by
        intro other member
        simp only [List.mem_cons, List.not_mem_nil, or_false] at member
        rcases member with isFirst | isSecond
        · rw [isFirst]
          exact ⟨even, large⟩
        · rw [isSecond]
          simp only
          omega)
      (by
        have total := front.total
        simp only [List.map_append, List.map_cons, List.map_nil, List.sum_append, List.sum_cons,
          List.sum_nil] at total ⊢
        omega)
    have ordered : before ++ [⟨piece.ptr, size, false⟩, ⟨rem, piece.len - size - gap, false⟩] ++
        after = (before ++ [⟨piece.ptr, size, false⟩]) ++
          (⟨rem, piece.len - size - gap, false⟩ : Piece) :: after := by
      simp
    have orderedFreed : before ++ [⟨piece.ptr, size, false⟩,
        ⟨rem, piece.len - size - gap, true⟩] ++ after =
          (before ++ [⟨piece.ptr, size, false⟩]) ++
            (⟨rem, piece.len - size - gap, false⟩ : Piece).freed :: after := by
      simp [Piece.freed]
    have reordered : ([⟨piece.ptr, size, false⟩, ⟨rem, piece.len - size - gap, false⟩] ++
        (before ++ after) : List Piece).Perm
          (before ++ [⟨piece.ptr, size, false⟩, ⟨rem, piece.len - size - gap, false⟩] ++
            after) := by
      rw [List.append_assoc]
      exact List.perm_append_comm_assoc ..
    have orderedRep := midRep.perm reordered
    rw [ordered] at orderedRep midLayout
    obtain ⟨next, newLists, isInserted, newLayout, newRep, newMemory, newExact⟩ :=
      physical.insert_spec midLayout orderedRep rfl
    refine ⟨rem, mid, next, [⟨piece.ptr, size, false⟩, ⟨rem, piece.len - size - gap, true⟩],
      newLists, isSplit, (if_pos nonzero).trans isInserted,
      ⟨by omega, .inr ⟨by omega, rem, rfl⟩⟩, orderedFreed ▸ newLayout, orderedFreed ▸ newRep,
      ?_, ?_⟩
    · intro place untouched newUntouched
      rw [newMemory place (orderedFreed ▸ newUntouched)]
      apply memory place untouched
      have outside := newUntouched ⟨rem, piece.len - size - gap, true⟩ (by simp)
      rw [span_of_free rfl] at outside
      exact outside
    · intro isExact
      apply newExact
      intro fli sli nonempty
      rw [relaid.lists.l2Free]
      exact isExact fli sli nonempty

/-- What `tlsf_ext_alloc` does with the class it found. -/
theorem Physical.takeBlock_spec (physical : Physical gap layout Splits)
    (isLayout : layout tlsf (before ++ piece :: after))
    (rep : Rep tlsf (before ++ piece :: after) lists) (isFree : piece.free = true)
    (mapped : getMapping piece.len = some index) (isHead : tlsf.map index = piece.ptr)
    (even : size % 2 = 0) (large : mbs ≤ size) (fits : size ≤ piece.len)
    (splits : size + (gap + mbs) ≤ piece.len →
      Splits (tlsf.unlinkBlock piece.ptr index) piece.used size answer) :
    ∃ next middle newLists, tlsf.takeBlock size index answer = some (piece.ptr, next) ∧
      Obtained gap size piece middle ∧ layout next (before ++ middle ++ after) ∧
      Rep next (before ++ middle ++ after) newLists ∧
      (∀ place, Untouched (before ++ piece :: after) place →
        Untouched (before ++ middle ++ after) place →
        next.memory place = tlsf.memory place) ∧
      (BitsExact tlsf lists → BitsExact next newLists) := by
  have front := rep.perm List.perm_middle
  have nonzero : tlsf.map index ≠ 0 := isHead ▸ (front.pointer piece List.mem_cons_self).1
  have notTail : NotTail tlsf piece.ptr := .inr (isHead ▸ rep.head_prev nonzero)
  have outside := sameOutside_unlinkBlock front isFree mapped
  have removedFront := front.remove isFree mapped
  have removedRep := removedFront.perm
    (List.perm_middle.symm : (piece.used :: (before ++ after)).Perm (before ++ piece.used :: after))
  have removedLayout : layout (tlsf.unlinkBlock piece.ptr index)
      (before ++ piece.used :: after) :=
    physical.congr isLayout outside.space (outside.perm List.perm_middle.symm).addr
      (by simp [Piece.used, Piece.extent])
  have removedExact := (bitsExact_unlinkBlock_iff front isFree mapped · |>.mpr notTail)
  have removedLen : (tlsf.unlinkBlock piece.ptr index).field piece.ptr .len = piece.len :=
    removedFront.word piece.used List.mem_cons_self
  have removedGap := physical.gap_eq removedLayout
  have pieceLt := front.len_lt List.mem_cons_self
  have usedWithin : ∀ place, Untouched (before ++ piece :: after) place →
      Untouched (before ++ piece.used :: after) place := by
    intro place untouched
    apply untouched.mono
    intro other member
    simp only [List.mem_append, List.mem_cons] at member ⊢
    rcases member with inBefore | isPiece | inAfter
    · exact ⟨other, .inl inBefore, rfl, fun _ => rfl⟩
    · exact ⟨piece, .inr (.inl rfl), by rw [isPiece, Piece.used], by simp [isPiece, Piece.used]⟩
    · exact ⟨other, .inr (.inr inAfter), rfl, fun _ => rfl⟩
  have removedMemory : ∀ place, Untouched (before ++ piece :: after) place →
      (tlsf.unlinkBlock piece.ptr index).memory place = tlsf.memory place := by
    intro place untouched
    apply outside.memory place
    intro other member
    exact untouched.outside other (List.perm_middle.mem_iff.mpr member)
  rw [Tlsf.takeBlock, removeBlock_head nonzero, isHead, Option.bind_eq_bind, Option.bind_some]
  simp only
  rw [removedLen, removedGap, subWord_of_le fits pieceLt]
  by_cases leaves : piece.len - size ≥ mbs + gap
  · rw [if_pos leaves]
    obtain ⟨rem, mid, next, middle, newLists, isSplit, result, obtained, newLayout, newRep,
      memory, newExact⟩ :=
      physical.split_spec removedLayout removedRep rfl even large
        (show size + (gap + mbs) ≤ piece.len by omega) (splits (by omega))
    have usedPtr : piece.used.ptr = piece.ptr := rfl
    rw [usedPtr] at isSplit
    refine ⟨next, middle, newLists, ?_, obtained, newLayout, newRep, ?_, ?_⟩
    · rw [isSplit]
      simp only
      by_cases isNull : rem = 0
      · rw [if_neg (not_not.mpr isNull)] at result ⊢
        rw [Option.some.inj result, Option.pure_def]
      · rw [if_pos isNull] at result ⊢
        rw [result, Option.bind_eq_bind, Option.bind_some, Option.pure_def]
    · intro place untouched newUntouched
      rw [memory place (usedWithin place untouched) newUntouched, removedMemory place untouched]
    · exact fun isExact => newExact (removedExact isExact)
  · rw [if_neg leaves, Option.pure_def]
    refine ⟨tlsf.unlinkBlock piece.ptr index, [piece.used], _, ?_, ⟨fits, .inl ?_⟩, ?_, ?_,
      fun place untouched _ => removedMemory place untouched, removedExact⟩
    · simp only
    · simp only
    · rwa [List.append_assoc, List.singleton_append]
    · rwa [List.append_assoc, List.singleton_append]

theorem targetClass_level {size : Nat} (positive : 0 < size) (small : target size < 2 ^ 63) :
    (targetClass size).1 + 1 < 64 := by
  have large := (mbs_le_wanted positive).trans (wanted_le_target size)
  have nonzero : target size ≠ 0 := by
    unfold mbs at large
    omega
  have level := (Nat.log2_lt nonzero).mpr small
  unfold targetClass classOf
  simp only
  omega

theorem extAlloc_eq (positive : 0 < size) (small : target size < 2 ^ 64) :
    tlsf.extAlloc size answer =
      (tlsf.findClass (targetClass size).1 (targetClass size).2).bind fun
        | none => some (0, tlsf)
        | some index => tlsf.takeBlock (wanted size) index answer := by
  have large := (mbs_le_wanted positive).trans (wanted_le_target size)
  rw [Tlsf.extAlloc, roundup2_of_target small, roundedTarget_eq positive small]
  simp only [Option.bind_eq_bind, Option.bind_some, mapped_classOf large]
  rfl

/-- What `tlsf_ext_alloc` does. -/
theorem Physical.extAlloc_spec (physical : Physical gap layout Splits)
    (isLayout : layout tlsf pieces) (rep : Rep tlsf pieces lists) (positive : 0 < size)
    (isDefined : tlsf.AllocDefined size)
    (splits : ∀ index piece,
      tlsf.findClass (targetClass size).1 (targetClass size).2 = some (some index) →
      tlsf.map index = piece.ptr → piece ∈ pieces → piece.free = true →
      wanted size + (gap + mbs) ≤ piece.len →
      Splits (tlsf.unlinkBlock piece.ptr index) piece.used (wanted size) answer) :
    tlsf.extAlloc size answer = some (0, tlsf) ∧
        NoneSeen tlsf (targetClass size).1 (targetClass size).2 ∨
      ∃ before piece after next middle newLists, pieces = before ++ piece :: after ∧
        piece.free = true ∧ tlsf.extAlloc size answer = some (piece.ptr, next) ∧
        Obtained gap (wanted size) piece middle ∧ layout next (before ++ middle ++ after) ∧
        Rep next (before ++ middle ++ after) newLists ∧
        (∀ place, Untouched pieces place → Untouched (before ++ middle ++ after) place →
          next.memory place = tlsf.memory place) ∧
        (BitsExact tlsf lists → BitsExact next newLists) := by
  have targetLt := isDefined.1
  have large := mbs_le_wanted positive
  have targetLarge := large.trans (wanted_le_target size)
  have mapped : getMapping (target size) = some (targetClass size) := mapped_classOf targetLarge
  have shift : (targetClass size).1 + 1 < 64 ∨ eligibleWord tlsf size ≠ 0#64 :=
    isDefined.2.imp (targetClass_level positive) id
  rw [extAlloc_eq positive targetLt]
  rcases findClass_spec rep shift with ⟨notFound, noneSeen⟩ | ⟨index, found, serves, nonempty⟩
  · left
    rw [notFound]
    exact ⟨rfl, noneSeen⟩
  · right
    have headNonzero : tlsf.map index ≠ 0 := fun isZero =>
      nonempty ((rep.map_eq_zero_iff index).mp isZero)
    obtain ⟨piece, isPiece, isPtr, isFree, pieceMapped⟩ := rep.listed_mem (rep.map_mem headNonzero)
    have fits : wanted size ≤ piece.len :=
      fits_of_serves large rfl targetLt mapped (rep.length piece isPiece).2 pieceMapped serves
    have splitsPiece := splits index piece found isPtr.symm isPiece isFree
    obtain ⟨before, after, isSplit⟩ := List.append_of_mem isPiece
    subst isSplit
    obtain ⟨next, middle, newLists, result, rest⟩ :=
      physical.takeBlock_spec isLayout rep isFree pieceMapped isPtr.symm (wanted_mod size) large
        fits splitsPiece
    refine ⟨before, piece, after, next, middle, newLists, rfl, isFree, ?_, rest⟩
    rw [found]
    exact result

end Taking

end MallocSurvey.Tlsf1
