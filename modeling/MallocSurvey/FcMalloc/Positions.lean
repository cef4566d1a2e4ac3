import MallocSurvey.FcMalloc.BitIndex

/-! # The positions of a `bit_index`

An index stands for the positions of the bits set in its leaves. The base index of
every level marks the sub-indices that are not empty. -/

namespace MallocSurvey.FcMalloc

open Library

/-! ## Sizes -/

theorem indexSize_pos (level : Nat) : 0 < indexSize level := Nat.pow_pos (by decide)

theorem indexSize_succ (level : Nat) : indexSize (level + 1) = 64 * indexSize level := by
  unfold indexSize
  rw [Nat.pow_succ, Nat.mul_comm]

@[simp] theorem subIndexSize_eq (level : Nat) : subIndexSize level = indexSize level := by
  unfold subIndexSize
  rw [indexSize_succ]
  omega

@[simp] theorem subIndexCount_eq (level : Nat) : subIndexCount level = 64 := by
  unfold subIndexCount
  rw [subIndexSize_eq, indexSize_succ, Nat.mul_div_cancel _ (indexSize_pos level)]

theorem div_lt_count {level bit : Nat} (inRange : bit < indexSize (level + 1)) :
    bit / indexSize level < 64 := by
  rw [indexSize_succ] at inRange
  exact Nat.div_lt_of_lt_mul (by rw [Nat.mul_comm]; exact inRange)

theorem mod_lt_size (level bit : Nat) : bit % indexSize level < indexSize level :=
  Nat.mod_lt _ (indexSize_pos level)

/-- A position and the pair of its sub-index and its place there. -/
theorem split_eq {level subIdx place : Nat} (inRange : place < indexSize level) :
    (subIdx * indexSize level + place) / indexSize level = subIdx ∧
      (subIdx * indexSize level + place) % indexSize level = place := by
  rw [Nat.mul_comm]
  constructor
  · rw [Nat.mul_add_div (indexSize_pos level), Nat.div_eq_of_lt inRange, Nat.add_zero]
  · rw [Nat.mul_add_mod, Nat.mod_eq_of_lt inRange]

theorem join_lt {level subIdx place : Nat} (subInRange : subIdx < 64)
    (inRange : place < indexSize level) :
    subIdx * indexSize level + place < indexSize (level + 1) := by
  have more := Nat.mul_le_mul_right (indexSize level) (Nat.succ_le_of_lt subInRange)
  rw [indexSize_succ]
  rw [Nat.succ_mul] at more
  omega

/-! ## Words -/

namespace Word

theorem getMsbD_mask {pos : Nat} (inRange : pos < 64) (other : Nat) :
    (mask pos).getMsbD other = decide (other = pos) := by
  unfold mask
  rw [BitVec.getMsbD_shiftLeft, BitVec.getMsbD_one]
  by_cases same : other = pos
  · simp [same]
    omega
  · simp [same]
    omega

theorem lt_of_getMsbD {bits : BitVec 64} {pos : Nat} (isSet : bits.getMsbD pos = true) :
    pos < 64 := by
  rw [BitVec.getMsbD_eq_getLsbD, Bool.and_eq_true] at isSet
  exact of_decide_eq_true isSet.1

theorem getMsbD_zero (pos : Nat) : (0 : BitVec 64).getMsbD pos = false := BitVec.getMsbD_zero

theorem eq_zero_iff (bits : BitVec 64) : bits = 0 ↔ ∀ pos, bits.getMsbD pos = false := by
  constructor
  · rintro rfl pos
    exact getMsbD_zero pos
  · intro none_set
    apply BitVec.eq_of_getMsbD_eq
    intro pos _
    rw [none_set pos, getMsbD_zero]

theorem get_eq {pos : Nat} (bits : BitVec 64) (inRange : pos < 64) :
    get bits pos = some (bits.getMsbD pos) := by
  unfold get
  rw [if_pos inRange, Option.some.injEq]
  have nonzero : bits &&& mask pos ≠ 0 ↔ bits.getMsbD pos = true := by
    rw [Ne, eq_zero_iff]
    constructor
    · intro some_set
      by_contra isClear
      apply some_set
      intro other
      rw [BitVec.getMsbD_and, getMsbD_mask inRange]
      by_cases same : other = pos
      · rw [same, Bool.eq_false_of_not_eq_true isClear, Bool.false_and]
      · rw [decide_eq_false same, Bool.and_false]
    · intro isSet none_set
      have isClear := none_set pos
      rw [BitVec.getMsbD_and, getMsbD_mask inRange, isSet, decide_eq_true rfl] at isClear
      cases isClear
  cases isSet : bits.getMsbD pos with
  | false =>
      exact decide_eq_false fun some_set =>
        Bool.false_ne_true (isSet.symm.trans (nonzero.mp some_set))
  | true => exact decide_eq_true (nonzero.mpr isSet)

theorem set_spec {pos : Nat} (bits : BitVec 64) (inRange : pos < 64) :
    ∃ next, set bits pos = some next ∧
      ∀ other, next.getMsbD other = true ↔ other = pos ∨ bits.getMsbD other = true := by
  refine ⟨_, if_pos inRange, ?_⟩
  intro other
  rw [BitVec.getMsbD_or, getMsbD_mask inRange, Bool.or_eq_true, decide_eq_true_eq, Or.comm]

theorem clear_spec {pos : Nat} (bits : BitVec 64) (inRange : pos < 64) :
    ∃ isEmpty next, clear bits pos = some (isEmpty, next) ∧
      (∀ other, next.getMsbD other = true ↔ other ≠ pos ∧ bits.getMsbD other = true) ∧
      (isEmpty = true ↔ ∀ other, next.getMsbD other = false) := by
  refine ⟨_, _, if_pos inRange, ?_, ?_⟩
  · intro other
    rw [BitVec.getMsbD_and, BitVec.getMsbD_not, getMsbD_mask inRange]
    by_cases inWord : other < 64
    · simp [inWord, and_comm]
    · have outside : bits.getMsbD other = false := by
        cases isSet : bits.getMsbD other with
        | false => rfl
        | true => exact absurd (lt_of_getMsbD isSet) inWord
      simp [outside]
  · rw [decide_eq_true_eq]
    exact eq_zero_iff _

/-- The first position, or 64. -/
theorem firstSetBit_spec (bits : BitVec 64) :
    firstSetBit bits = 64 ∧ (∀ pos, bits.getMsbD pos = false) ∨
      bits.getMsbD (firstSetBit bits) = true ∧
        ∀ pos, bits.getMsbD pos = true → firstSetBit bits ≤ pos := by
  unfold firstSetBit
  by_cases zero : bits = 0
  · rw [if_pos zero]
    exact .inl ⟨rfl, (eq_zero_iff bits).mp zero⟩
  · rw [if_neg zero]
    unfold lzero
    right
    have highest := getLsbD_bsr zero
    have inWord := lt_width_of_getLsbD highest
    constructor
    · rw [BitVec.getMsbD_eq_getLsbD]
      have place : 64 - 1 - (63 - bsr bits) = bsr bits := by omega
      rw [place, highest, decide_eq_true (by omega)]
      rfl
    · intro pos isSet
      rw [BitVec.getMsbD_eq_getLsbD, Bool.and_eq_true] at isSet
      have below := le_bsr isSet.2
      omega

end Word

/-! ## Indices -/

namespace BitIndex

/-- The bit of a position is set. -/
def Contains : {level : Nat} → BitIndex level → Nat → Prop
  | 0, .leaf bits, pos => bits.getMsbD pos = true
  | level + 1, .node _ subIndex, pos =>
      ∃ subIdx, subIdx.val = pos / indexSize level ∧
        (subIndex subIdx).Contains (pos % indexSize level)

def IsEmpty {level : Nat} (index : BitIndex level) : Prop := ∀ pos, ¬ index.Contains pos

/-- Every summary bit is set exactly when the sub-index below it is not empty. -/
def Summarised : {level : Nat} → BitIndex level → Prop
  | 0, .leaf _ => True
  | _ + 1, .node baseIndex subIndex =>
      ∀ subIdx : Fin 64, (subIndex subIdx).Summarised ∧
        (baseIndex.getMsbD subIdx = true ↔ ¬ (subIndex subIdx).IsEmpty)

theorem contains_node {level : Nat} {baseIndex : BitVec 64} {subIndex : Fin 64 → BitIndex level}
    {pos : Nat} : (BitIndex.node baseIndex subIndex).Contains pos ↔
      ∃ subIdx : Fin 64, subIdx.val = pos / indexSize level ∧
        (subIndex subIdx).Contains (pos % indexSize level) :=
  Iff.rfl

theorem Contains.lt {level : Nat} {index : BitIndex level} {pos : Nat}
    (contains : index.Contains pos) : pos < indexSize level := by
  induction index generalizing pos with
  | leaf bits => exact Word.lt_of_getMsbD contains
  | @node level baseIndex subIndex induction =>
      obtain ⟨subIdx, isSub, _⟩ := contains
      have below := subIdx.isLt
      rw [isSub, Nat.div_lt_iff_lt_mul (indexSize_pos level)] at below
      rw [indexSize_succ]
      exact below

theorem contains_join {level : Nat} {baseIndex : BitVec 64} {subIndex : Fin 64 → BitIndex level}
    {subIdx : Fin 64} {place : Nat} (inRange : place < indexSize level) :
    (BitIndex.node baseIndex subIndex).Contains (subIdx * indexSize level + place) ↔
      (subIndex subIdx).Contains place := by
  obtain ⟨quotient, remainder⟩ := @split_eq level subIdx place inRange
  rw [contains_node, quotient, remainder]
  constructor
  · rintro ⟨other, same, contains⟩
    have sameSub : other = subIdx := Fin.ext same
    rwa [sameSub] at contains
  · intro contains
    exact ⟨subIdx, rfl, contains⟩

theorem isEmpty_node {level : Nat} {baseIndex : BitVec 64} {subIndex : Fin 64 → BitIndex level} :
    (BitIndex.node baseIndex subIndex).IsEmpty ↔ ∀ subIdx, (subIndex subIdx).IsEmpty := by
  constructor
  · intro isEmpty subIdx place contains
    exact isEmpty _ ((contains_join contains.lt).mpr contains)
  · rintro isEmpty pos ⟨subIdx, _, contains⟩
    exact isEmpty subIdx _ contains

theorem element_eq {level : Nat} (subIndex : Fin 64 → BitIndex level) (subIdx : Fin 64) :
    element subIndex subIdx = some (subIndex subIdx) :=
  dif_pos subIdx.isLt

theorem setElement_self {level : Nat} (subIndex : Fin 64 → BitIndex level) (subIdx : Fin 64)
    (changed : BitIndex level) : setElement subIndex subIdx changed subIdx = changed :=
  if_pos rfl

theorem setElement_of_ne {level : Nat} (subIndex : Fin 64 → BitIndex level)
    {subIdx other : Fin 64} (different : other ≠ subIdx) (changed : BitIndex level) :
    setElement subIndex subIdx changed other = subIndex other :=
  if_neg fun same => different (Fin.ext same)

theorem empty_spec (level : Nat) : (empty level).Summarised ∧ (empty level).IsEmpty := by
  induction level with
  | zero =>
      refine ⟨trivial, ?_⟩
      intro pos contains
      exact Bool.false_ne_true ((Word.getMsbD_zero pos).symm.trans contains)
  | succ level induction =>
      refine ⟨?_, isEmpty_node.mpr fun _ => induction.2⟩
      intro subIdx
      refine ⟨induction.1, ?_⟩
      rw [Word.getMsbD_zero]
      exact ⟨fun isSet => (by cases isSet), fun some_set => absurd induction.2 some_set⟩

/-! ### The operations -/

section

variable {level : Nat} {baseIndex : BitVec 64} {subIndex : Fin 64 → BitIndex level} {pos : Nat}

/-- The sub-index of a position. -/
def subIdxOf (inRange : pos < indexSize (level + 1)) : Fin 64 :=
  ⟨pos / indexSize level, div_lt_count inRange⟩

theorem get_node (inRange : pos < indexSize (level + 1)) :
    (BitIndex.node baseIndex subIndex).get pos =
      (subIndex (subIdxOf inRange)).get (pos % indexSize level) := by
  rw [get, if_pos inRange, subIndexSize_eq]
  change (element subIndex (subIdxOf inRange)).bind _ = _
  rw [element_eq]
  rfl

theorem set_node (inRange : pos < indexSize (level + 1)) :
    (BitIndex.node baseIndex subIndex).set pos = (do
      let baseIndex ← Word.set baseIndex (subIdxOf inRange)
      let sub ← (subIndex (subIdxOf inRange)).set (pos % indexSize level)
      return .node baseIndex (setElement subIndex (subIdxOf inRange) sub)) := by
  rw [set, if_pos inRange, subIndexSize_eq]
  change (do
    let baseIndex ← Word.set baseIndex (subIdxOf inRange)
    let sub ← element subIndex (subIdxOf inRange)
    let sub ← sub.set (pos % indexSize level)
    return BitIndex.node baseIndex (setElement subIndex (subIdxOf inRange) sub)) = _
  rw [element_eq]
  rfl

theorem clear_node (inRange : pos < indexSize (level + 1)) :
    (BitIndex.node baseIndex subIndex).clear pos = (do
      let (subEmpty, sub) ← (subIndex (subIdxOf inRange)).clear (pos % indexSize level)
      if subEmpty then
        let (isEmpty, baseIndex) ← Word.clear baseIndex (subIdxOf inRange)
        return (isEmpty, .node baseIndex (setElement subIndex (subIdxOf inRange) sub))
      else return (false, .node baseIndex (setElement subIndex (subIdxOf inRange) sub))) := by
  rw [clear, if_pos inRange, subIndexSize_eq]
  change (element subIndex (subIdxOf inRange)).bind _ = _
  rw [element_eq]
  rfl

theorem firstSetBit_node :
    (BitIndex.node baseIndex subIndex).firstSetBit =
      (if 64 ≤ Word.firstSetBit baseIndex then some (indexSize (level + 1))
      else do
        let sub ← element subIndex (Word.firstSetBit baseIndex)
        let first ← sub.firstSetBit
        return Word.firstSetBit baseIndex * indexSize level + first) := by
  rw [firstSetBit, subIndexCount_eq, subIndexSize_eq]
  rfl

end

theorem get_spec {level : Nat} (index : BitIndex level) {pos : Nat}
    (inRange : pos < indexSize level) :
    ∃ isSet, index.get pos = some isSet ∧ (isSet = true ↔ index.Contains pos) := by
  induction index generalizing pos with
  | leaf bits => exact ⟨_, Word.get_eq bits inRange, Iff.rfl⟩
  | @node level baseIndex subIndex induction =>
      obtain ⟨isSet, result, iff⟩ := induction (subIdxOf inRange) (mod_lt_size level pos)
      refine ⟨isSet, (get_node inRange).trans result, iff.trans ?_⟩
      constructor
      · intro contains
        exact ⟨subIdxOf inRange, rfl, contains⟩
      · rintro ⟨other, same, contains⟩
        have sameSub : other = subIdxOf inRange := Fin.ext same
        rwa [sameSub] at contains

/-- What changes at one position of a sub-index changes there in the index. -/
theorem contains_setElement {level : Nat} {baseIndex other : BitVec 64}
    {subIndex : Fin 64 → BitIndex level} {subIdx : Fin 64} {changed : BitIndex level}
    {Kept : Nat → Prop} {pos : Nat} (isSub : subIdx.val = pos / indexSize level)
    (iff : ∀ place, changed.Contains place ↔
      place = pos % indexSize level ∧ Kept pos ∨
        place ≠ pos % indexSize level ∧ (subIndex subIdx).Contains place) (place : Nat) :
    (BitIndex.node other (setElement subIndex subIdx changed)).Contains place ↔
      place = pos ∧ Kept pos ∨ place ≠ pos ∧ (BitIndex.node baseIndex subIndex).Contains place := by
  have samePlace : place / indexSize level = pos / indexSize level →
      (place = pos ↔ place % indexSize level = pos % indexSize level) := by
    intro sameSub
    constructor
    · rintro rfl
      rfl
    · intro same
      rw [← Nat.div_add_mod place (indexSize level), sameSub, same, Nat.div_add_mod]
  constructor
  · rintro ⟨target, isTarget, contains⟩
    by_cases same : target = subIdx
    · subst same
      have place_iff := samePlace (isTarget.symm.trans isSub)
      rw [setElement_self, iff, ← place_iff] at contains
      exact contains.imp id fun kept =>
        ⟨fun isPos => kept.1 (place_iff.mp isPos), target, isTarget, kept.2⟩
    · rw [setElement_of_ne subIndex same] at contains
      refine .inr ⟨?_, target, isTarget, contains⟩
      rintro rfl
      exact same (Fin.ext (isTarget.trans isSub.symm))
  · intro kept
    by_cases sameSub : place / indexSize level = pos / indexSize level
    · refine ⟨subIdx, isSub.trans sameSub.symm, ?_⟩
      rw [setElement_self, iff, ← samePlace sameSub]
      rcases kept with isPos | ⟨different, target, isTarget, contains⟩
      · exact .inl isPos
      · have sameTarget : target = subIdx := Fin.ext (isTarget.trans (sameSub.trans isSub.symm))
        rw [sameTarget] at contains
        exact .inr ⟨fun isPos => different ((samePlace sameSub).mpr isPos), contains⟩
    · rcases kept with ⟨rfl, _⟩ | ⟨_, target, isTarget, contains⟩
      · exact absurd rfl sameSub
      · refine ⟨target, isTarget, ?_⟩
        rw [setElement_of_ne subIndex]
        · exact contains
        · rintro rfl
          exact sameSub (isTarget.symm.trans isSub)

theorem set_spec {level : Nat} (index : BitIndex level) (summarised : index.Summarised)
    {pos : Nat} (inRange : pos < indexSize level) :
    ∃ next, index.set pos = some next ∧ next.Summarised ∧
      ∀ other, next.Contains other ↔ other = pos ∨ index.Contains other := by
  induction index generalizing pos with
  | leaf bits =>
      obtain ⟨next, result, iff⟩ := Word.set_spec bits inRange
      refine ⟨.leaf next, ?_, trivial, iff⟩
      unfold set
      rw [result]
      rfl
  | @node level baseIndex subIndex induction =>
      let subIdx := subIdxOf inRange
      obtain ⟨sub, subResult, subSummarised, subIff⟩ :=
        induction subIdx (summarised subIdx).1 (mod_lt_size level pos)
      obtain ⟨base, baseResult, baseIff⟩ := Word.set_spec baseIndex subIdx.isLt
      refine ⟨.node base (setElement subIndex subIdx sub), ?_, ?_, ?_⟩
      · rw [set_node inRange, baseResult]
        change (BitIndex.set _ _).bind _ = _
        rw [subResult]
        rfl
      · intro other
        by_cases same : other = subIdx
        · subst same
          rw [setElement_self, baseIff]
          refine ⟨subSummarised, fun _ isEmpty => ?_, fun _ => .inl rfl⟩
          exact isEmpty _ ((subIff _).mpr (.inl rfl))
        · rw [setElement_of_ne subIndex same, baseIff]
          refine ⟨(summarised other).1, ?_⟩
          rw [← (summarised other).2]
          exact or_iff_right fun sameVal => same (Fin.ext sameVal)
      · intro other
        rw [@contains_setElement level baseIndex base subIndex subIdx sub (fun _ => True) pos rfl]
        · by_cases same : other = pos
          · simp [same]
          · simp [same]
        · intro place
          rw [subIff]
          by_cases same : place = pos % indexSize level
          · simp [same]
          · simp [same]

/-- `clear` tells whether the index has become empty. -/
theorem clear_spec {level : Nat} (index : BitIndex level) (summarised : index.Summarised)
    {pos : Nat} (inRange : pos < indexSize level) :
    ∃ isEmpty next, index.clear pos = some (isEmpty, next) ∧ next.Summarised ∧
      (∀ other, next.Contains other ↔ other ≠ pos ∧ index.Contains other) ∧
      (isEmpty = true ↔ next.IsEmpty) := by
  induction index generalizing pos with
  | leaf bits =>
      obtain ⟨isEmpty, next, result, iff, emptyIff⟩ := Word.clear_spec bits inRange
      refine ⟨isEmpty, .leaf next, ?_, trivial, iff, emptyIff.trans ?_⟩
      · unfold clear
        rw [result]
        rfl
      · exact forall_congr' fun _ => (Bool.not_eq_true _).symm ▸ Iff.rfl
  | @node level baseIndex subIndex induction =>
      let subIdx := subIdxOf inRange
      obtain ⟨subEmpty, sub, subResult, subSummarised, subIff, subEmptyIff⟩ :=
        induction subIdx (summarised subIdx).1 (mod_lt_size level pos)
      have containsIff : ∀ base other,
          (BitIndex.node base (setElement subIndex subIdx sub)).Contains other ↔
            other ≠ pos ∧ (BitIndex.node baseIndex subIndex).Contains other := by
        intro base other
        rw [@contains_setElement level baseIndex base subIndex subIdx sub (fun _ => False) pos rfl]
        · simp only [and_false, false_or]
        · intro place
          rw [subIff]
          simp only [and_false, false_or]
      rw [clear_node inRange, subResult]
      cases subEmpty with
      | true =>
          obtain ⟨isEmpty, base, baseResult, baseIff, baseEmptyIff⟩ :=
            Word.clear_spec baseIndex subIdx.isLt
          have nextSummarised :
              (BitIndex.node base (setElement subIndex subIdx sub)).Summarised := by
            intro other
            by_cases same : other = subIdx
            · subst same
              rw [setElement_self, baseIff]
              refine ⟨subSummarised, fun isSet => absurd rfl isSet.1, fun notEmpty => ?_⟩
              exact absurd (subEmptyIff.mp rfl) notEmpty
            · rw [setElement_of_ne subIndex same, baseIff, ← (summarised other).2]
              refine ⟨(summarised other).1, fun isSet => isSet.2, fun isSet => ⟨?_, isSet⟩⟩
              exact fun sameVal => same (Fin.ext sameVal)
          refine ⟨isEmpty, .node base (setElement subIndex subIdx sub), ?_, nextSummarised,
            containsIff base, baseEmptyIff.trans ?_⟩
          · change (Word.clear baseIndex subIdx).bind _ = _
            rw [baseResult]
            rfl
          · rw [isEmpty_node]
            constructor
            · intro none_set other
              by_contra notEmpty
              have isSet := (nextSummarised other).2.mpr notEmpty
              rw [none_set other] at isSet
              cases isSet
            · intro allEmpty place
              cases isSet : base.getMsbD place with
              | false => rfl
              | true =>
                  have inWord := Word.lt_of_getMsbD isSet
                  exact absurd (allEmpty ⟨place, inWord⟩)
                    ((nextSummarised ⟨place, inWord⟩).2.mp isSet)
      | false =>
          have notEmpty : ¬ sub.IsEmpty := fun isEmpty =>
            Bool.false_ne_true (subEmptyIff.mpr isEmpty)
          refine ⟨false, .node baseIndex (setElement subIndex subIdx sub), rfl, ?_,
            containsIff baseIndex, ?_⟩
          · intro other
            by_cases same : other = subIdx
            · subst same
              rw [setElement_self]
              refine ⟨subSummarised, fun _ => notEmpty, fun _ => ?_⟩
              rw [(summarised subIdx).2]
              intro isEmpty
              apply notEmpty
              intro place contains
              exact isEmpty place ((subIff place).mp contains).2
            · rw [setElement_of_ne subIndex same]
              exact summarised other
          · rw [isEmpty_node]
            refine ⟨fun impossible => (by cases impossible), fun allEmpty => ?_⟩
            have subIsEmpty := allEmpty subIdx
            rw [setElement_self] at subIsEmpty
            exact absurd subIsEmpty notEmpty

/-- The least position, or the capacity. -/
theorem firstSetBit_spec {level : Nat} (index : BitIndex level)
    (summarised : index.Summarised) :
    ∃ first, index.firstSetBit = some first ∧
      (first = indexSize level ∧ index.IsEmpty ∨
        index.Contains first ∧ ∀ pos, index.Contains pos → first ≤ pos) := by
  induction index with
  | leaf bits =>
      refine ⟨_, rfl, (Word.firstSetBit_spec bits).imp ?_ id⟩
      exact fun isEmpty => ⟨isEmpty.1, fun pos isSet => Bool.false_ne_true
        ((isEmpty.2 pos).symm.trans isSet)⟩
  | @node level baseIndex subIndex induction =>
      rw [firstSetBit_node]
      rcases Word.firstSetBit_spec baseIndex with ⟨isFull, none_set⟩ | ⟨isSet, least⟩
      · refine ⟨indexSize (level + 1), ?_, .inl ⟨rfl, isEmpty_node.mpr ?_⟩⟩
        · rw [isFull, if_pos (Nat.le_refl 64)]
        · intro subIdx
          by_contra notEmpty
          have isMarked := (summarised subIdx).2.mpr notEmpty
          rw [none_set] at isMarked
          cases isMarked
      · have inWord := Word.lt_of_getMsbD isSet
        let subIdx : Fin 64 := ⟨Word.firstSetBit baseIndex, inWord⟩
        have notEmpty := (summarised subIdx).2.mp isSet
        obtain ⟨first, result, spec⟩ := induction subIdx (summarised subIdx).1
        rcases spec with ⟨_, isEmpty⟩ | ⟨contains, subLeast⟩
        · exact absurd isEmpty notEmpty
        · refine ⟨subIdx * indexSize level + first, ?_, .inr ⟨?_, ?_⟩⟩
          · rw [if_neg (Nat.not_le_of_lt inWord)]
            change (element subIndex subIdx).bind _ = _
            rw [element_eq, Option.bind_some, result]
            rfl
          · exact (contains_join contains.lt).mpr contains
          · rintro pos ⟨other, isOther, otherContains⟩
            have marked := (summarised other).2.mpr fun isEmpty => isEmpty _ otherContains
            have atLeast : subIdx.val ≤ pos / indexSize level := isOther ▸ least other marked
            rcases Nat.eq_or_lt_of_le atLeast with same | before
            · have sameSub : other = subIdx := Fin.ext (isOther.trans same.symm)
              rw [sameSub] at otherContains
              have below := subLeast _ otherContains
              have split := Nat.div_add_mod pos (indexSize level)
              rw [← same, Nat.mul_comm] at split
              omega
            · have more := Nat.mul_le_mul_right (indexSize level) (Nat.succ_le_of_lt before)
              have split := Nat.div_mul_le_self pos (indexSize level)
              rw [Nat.succ_mul] at more
              have small := contains.lt
              omega

end BitIndex

end MallocSurvey.FcMalloc
