import MallocSurvey.Tlsf1.Pieces

/-! # Inserting and removing blocks

`insert_block` turns a used piece into a free one and `remove_block` a free one into a
used one. -/

namespace MallocSurvey.Tlsf1

open Library

/-! ## Bits -/

theorem getLsbD_setBit (word : BitVec 64) {bit other : Nat} (small : other < 64) :
    (word ||| 1#64 <<< bit).getLsbD other = (word.getLsbD other || decide (other = bit)) := by
  rw [BitVec.getLsbD_or, BitVec.getLsbD_shiftLeft, BitVec.getLsbD_one]
  by_cases same : other = bit
  · simp [same, same ▸ small]
  · have different : other < bit ∨ other - bit ≠ 0 := by omega
    rcases different with below | above
    · simp [below, same]
    · simp [above, same]

theorem getLsbD_clearBit (word : BitVec 64) {bit other : Nat} (small : other < 64) :
    (word &&& ~~~(1#64 <<< bit)).getLsbD other = (word.getLsbD other && decide (other ≠ bit)) := by
  rw [BitVec.getLsbD_and, BitVec.getLsbD_not, BitVec.getLsbD_shiftLeft, BitVec.getLsbD_one]
  by_cases same : other = bit
  · simp [same]
  · have different : other < bit ∨ other - bit ≠ 0 := by omega
    rcases different with below | above
    · simp [below, same, small]
    · simp [above, same, small]

theorem ne_zero_of_getLsbD {word : BitVec 64} {bit : Nat} (isSet : word.getLsbD bit = true) :
    word ≠ 0#64 := by
  intro isZero
  rw [isZero, BitVec.getLsbD_zero] at isSet
  cases isSet

/-- The first-level bits after a class gained a block. -/
theorem level1_setBits {tlsf : Tlsf} {fli sli : Nat}
    (level1 : ∀ fli < 64, tlsf.l1Free.getLsbD fli = true ↔ tlsf.l2Free fli ≠ 0#64)
    (sliLt : sli < 64) :
    ∀ level < 64, (tlsf.setBits fli sli).l1Free.getLsbD level = true ↔
      (tlsf.setBits fli sli).l2Free level ≠ 0#64 := by
  intro level small
  simp only [Tlsf.setBits]
  rw [getLsbD_setBit _ small]
  by_cases same : level = fli
  · rw [same, Function.update_self]
    have isSet : (tlsf.l2Free fli ||| 1#64 <<< sli).getLsbD sli = true := by
      rw [getLsbD_setBit _ sliLt]
      simp
    simp [ne_zero_of_getLsbD isSet]
  · rw [Function.update_of_ne same]
    simp [same, level1 level small]

theorem level1_clearBits {tlsf : Tlsf} {fli sli : Nat}
    (level1 : ∀ fli < 64, tlsf.l1Free.getLsbD fli = true ↔ tlsf.l2Free fli ≠ 0#64) :
    ∀ level < 64, (tlsf.clearBits fli sli).l1Free.getLsbD level = true ↔
      (tlsf.clearBits fli sli).l2Free level ≠ 0#64 := by
  intro level small
  simp only [Tlsf.clearBits]
  by_cases same : level = fli
  · subst same
    rw [Function.update_self]
    split
    · next isZero =>
        rw [getLsbD_clearBit _ small]
        simp [isZero]
    · next nonzero =>
        have wordNonzero : tlsf.l2Free level ≠ 0#64 := by
          intro isZero
          exact nonzero (by rw [isZero, BitVec.zero_and])
        simp only [nonzero, ne_eq, not_false_eq_true, iff_true]
        exact (level1 level small).mpr wordNonzero
  · rw [Function.update_of_ne same, ← level1 level small]
    split
    · rw [getLsbD_clearBit _ small]
      simp [same]
    · rfl

/-! ## insert_block -/

section Insert

variable {tlsf : Tlsf} {others : List Piece} {lists : Nat × Nat → List Nat}
  {piece : Piece} {index : Nat × Nat}

section Projections

variable (tlsf : Tlsf) (blk : Nat) (index : Nat × Nat)

@[simp] theorem linkFirst_map :
    (tlsf.linkFirst blk index).map = Function.update tlsf.map index blk := rfl

@[simp] theorem linkFirst_free : (tlsf.linkFirst blk index).free = tlsf.free := by
  simp only [Tlsf.linkFirst]
  split <;> rfl

@[simp] theorem linkFirst_l1Free : (tlsf.linkFirst blk index).l1Free = tlsf.l1Free := by
  simp only [Tlsf.linkFirst]
  split <;> rfl

@[simp] theorem linkFirst_l2Free : (tlsf.linkFirst blk index).l2Free = tlsf.l2Free := by
  simp only [Tlsf.linkFirst]
  split <;> rfl

@[simp] theorem markFree_map : (tlsf.markFree blk).map = tlsf.map := by
  unfold Tlsf.markFree
  rfl

@[simp] theorem markFree_l1Free : (tlsf.markFree blk).l1Free = tlsf.l1Free := by
  unfold Tlsf.markFree
  rfl

@[simp] theorem markFree_l2Free : (tlsf.markFree blk).l2Free = tlsf.l2Free := by
  unfold Tlsf.markFree
  rfl

@[simp] theorem markFree_free :
    (tlsf.markFree blk).free = addWord tlsf.free (tlsf.field blk .len) := by
  unfold Tlsf.markFree
  rfl

theorem field_markFree (other : Nat) (name : Field) :
    (tlsf.markFree blk).field other name =
      (tlsf.setField blk .len (tlsf.field blk .len ||| 1)).field other name := by
  simp only [Tlsf.markFree, Tlsf.field]

@[simp] theorem unlinkNeighbours_map : (tlsf.unlinkNeighbours blk).map = tlsf.map := by
  simp only [Tlsf.unlinkNeighbours]
  split <;> split <;> rfl

@[simp] theorem unlinkNeighbours_free : (tlsf.unlinkNeighbours blk).free = tlsf.free := by
  simp only [Tlsf.unlinkNeighbours]
  split <;> split <;> rfl

@[simp] theorem unlinkNeighbours_l1Free :
    (tlsf.unlinkNeighbours blk).l1Free = tlsf.l1Free := by
  simp only [Tlsf.unlinkNeighbours]
  split <;> split <;> rfl

@[simp] theorem unlinkNeighbours_l2Free :
    (tlsf.unlinkNeighbours blk).l2Free = tlsf.l2Free := by
  simp only [Tlsf.unlinkNeighbours]
  split <;> split <;> rfl

@[simp] theorem unlinkHead_map : (tlsf.unlinkHead blk index).map =
    if tlsf.map index = blk then Function.update tlsf.map index (tlsf.field blk .next)
    else tlsf.map := by
  unfold Tlsf.unlinkHead
  split <;> rfl

@[simp] theorem unlinkHead_free : (tlsf.unlinkHead blk index).free = tlsf.free := by
  unfold Tlsf.unlinkHead
  split <;> rfl

@[simp] theorem unlinkHead_l1Free : (tlsf.unlinkHead blk index).l1Free = tlsf.l1Free := by
  unfold Tlsf.unlinkHead
  split <;> rfl

@[simp] theorem unlinkHead_l2Free : (tlsf.unlinkHead blk index).l2Free = tlsf.l2Free := by
  unfold Tlsf.unlinkHead
  split <;> rfl

@[simp] theorem field_unlinkHead (other : Nat) (name : Field) :
    (tlsf.unlinkHead blk index).field other name = tlsf.field other name := by
  unfold Tlsf.unlinkHead
  split <;> rfl

@[simp] theorem markUsed_map : (tlsf.markUsed blk).map = tlsf.map := by
  unfold Tlsf.markUsed
  rfl

@[simp] theorem markUsed_l1Free : (tlsf.markUsed blk).l1Free = tlsf.l1Free := by
  unfold Tlsf.markUsed
  rfl

@[simp] theorem markUsed_l2Free : (tlsf.markUsed blk).l2Free = tlsf.l2Free := by
  unfold Tlsf.markUsed
  rfl

@[simp] theorem markUsed_free :
    (tlsf.markUsed blk).free = subWord tlsf.free (tlsf.field blk .len / 2 * 2) := by
  unfold Tlsf.markUsed
  rfl

theorem field_markUsed (other : Nat) (name : Field) :
    (tlsf.markUsed blk).field other name =
      (tlsf.setField blk .len (tlsf.field blk .len / 2 * 2)).field other name := by
  simp only [Tlsf.markUsed, Tlsf.field]

@[simp] theorem clearBits_map (fli sli : Nat) : (tlsf.clearBits fli sli).map = tlsf.map := by
  unfold Tlsf.clearBits
  rfl

@[simp] theorem clearBits_free (fli sli : Nat) :
    (tlsf.clearBits fli sli).free = tlsf.free := by
  unfold Tlsf.clearBits
  rfl

@[simp] theorem field_clearBits (fli sli other : Nat) (name : Field) :
    (tlsf.clearBits fli sli).field other name = tlsf.field other name := by
  unfold Tlsf.clearBits
  rfl

@[simp] theorem setBits_map (fli sli : Nat) : (tlsf.setBits fli sli).map = tlsf.map := by
  unfold Tlsf.setBits
  rfl

@[simp] theorem setBits_free (fli sli : Nat) : (tlsf.setBits fli sli).free = tlsf.free := by
  unfold Tlsf.setBits
  rfl

@[simp] theorem field_setBits (fli sli other : Nat) (name : Field) :
    (tlsf.setBits fli sli).field other name = tlsf.field other name := by
  unfold Tlsf.setBits
  rfl

end Projections

def inserted (tlsf : Tlsf) (piece : Piece) (index : Nat × Nat) : Tlsf :=
  ((tlsf.linkFirst piece.ptr index).markFree piece.ptr).setBits index.1 index.2

theorem insertBlock_eq (rep : Rep tlsf (piece :: others) lists) (isUsed : piece.free = false)
    (mapped : getMapping piece.len = some index) :
    tlsf.insertBlock piece.ptr = some (inserted tlsf piece index) := by
  rw [Tlsf.insertBlock, rep.word piece List.mem_cons_self, wordOf, isUsed,
    Bool.toNat_false, Nat.add_zero, mapped, inserted]
  simp only [Option.bind_eq_bind, Option.bind_some, Option.pure_def]

theorem or_one {value : Nat} (even : value % 2 = 0) : value ||| 1 = value + 1 := by
  obtain ⟨half, rfl⟩ := Nat.dvd_of_mod_eq_zero even
  exact (Nat.two_pow_add_eq_or_of_lt (show 1 < 2 ^ 1 by decide) half).symm

/-- A used block is not the first one of a list. -/
theorem Rep.map_ne (rep : Rep tlsf (piece :: others) lists) (isUsed : piece.free = false)
    (index : Nat × Nat) : tlsf.map index ≠ piece.ptr := by
  intro isHead
  have isPiece := rep.pointer piece List.mem_cons_self
  have isListed := rep.map_mem (isHead ▸ isPiece.1)
  obtain ⟨listed, listedMem, isPtr, isFree, _⟩ := rep.listed_mem isListed
  rcases List.mem_cons.mp listedMem with same | inOthers
  · rw [same, isUsed] at isFree
    cases isFree
  · exact rep.ptr_ne inOthers (isPtr.trans isHead)

theorem Rep.map_lt {pieces : List Piece} (rep : Rep tlsf pieces lists) (index : Nat × Nat) :
    tlsf.map index < 2 ^ 64 := by
  by_cases isNull : tlsf.map index = 0
  · rw [isNull]
    exact Nat.two_pow_pos 64
  · obtain ⟨listed, listedMem, isPtr, _⟩ := rep.listed_mem (rep.map_mem isNull)
    exact isPtr ▸ (rep.pointer listed listedMem).2

theorem length_linkFirst (rep : Rep tlsf (piece :: others) lists)
    (isUsed : piece.free = false) (index : Nat × Nat) :
    (tlsf.linkFirst piece.ptr index).field piece.ptr .len = piece.len := by
  rw [field_linkFirst (.refl _)
    (fun nonzero => rep.listed_separate (rep.map_mem nonzero) List.mem_cons_self)
    (rep.map_ne isUsed index) (rep.pointer piece List.mem_cons_self).2 (rep.map_lt index),
    rep.word piece List.mem_cons_self, wordOf, isUsed]
  simp

/-- What `insert_block` writes to the headers. -/
theorem field_inserted (rep : Rep tlsf (piece :: others) lists) (isUsed : piece.free = false)
    {other : Piece} (member : other ∈ piece :: others) (name : Field) :
    (inserted tlsf piece index).field other.ptr name =
      if other.ptr = piece.ptr ∧ name = .len then piece.len + 1
      else if other.ptr = piece.ptr ∧ name = .next then tlsf.map index
      else if other.ptr = piece.ptr ∧ name = .prev then 0
      else if other.ptr = tlsf.map index ∧ name = .prev then piece.ptr
      else tlsf.field other.ptr name := by
  have isPiece := rep.pointer piece List.mem_cons_self
  have otherNonzero := (rep.pointer other member).1
  have headNe := rep.map_ne isUsed index
  have headLt := rep.map_lt index
  have pieceLt := rep.len_lt List.mem_cons_self
  have even := (rep.length piece List.mem_cons_self).1
  have pieceSeparate := rep.separate member List.mem_cons_self
  have links := @field_linkFirst tlsf piece.ptr index other.ptr name pieceSeparate
    (fun nonzero => rep.listed_separate (rep.map_mem nonzero) member) headNe isPiece.2 headLt
  have length := length_linkFirst rep isUsed index
  rw [inserted, field_setBits, field_markFree, length, or_one even,
    Tlsf.field_setField pieceSeparate (by omega), links]
  simp only [otherNonzero, ne_eq, not_false_eq_true, true_and]

/-- The piece becomes free and the first one of its list. -/
theorem Rep.insert (rep : Rep tlsf (piece :: others) lists) (isUsed : piece.free = false)
    (mapped : getMapping piece.len = some index) :
    Rep (inserted tlsf piece index) (piece.freed :: others)
      (Function.update lists index (piece.ptr :: lists index)) := by
  obtain ⟨fliLt, sliLt⟩ := getMapping_lt mapped (rep.len_lt List.mem_cons_self)
  have notListed : ∀ index, piece.ptr ∉ lists index := by
    intro index isListed
    obtain ⟨listed, listedMem, isPtr, isFree, _⟩ := rep.listed_mem isListed
    rcases List.mem_cons.mp listedMem with same | inOthers
    · rw [same, isUsed] at isFree
      cases isFree
    · exact rep.ptr_ne inOthers isPtr
  have totalFree := freeTotal_le (piece.freed :: others)
  have fieldOf := @field_inserted tlsf others lists piece index rep isUsed
  have listedField : ∀ {listIndex ptr}, ptr ∈ lists listIndex → ∀ name,
      (inserted tlsf piece index).field ptr name =
        if ptr = tlsf.map index ∧ name = .prev then piece.ptr else tlsf.field ptr name := by
    intro listIndex ptr member name
    have notPiece : ptr ≠ piece.ptr := fun same => notListed listIndex (same ▸ member)
    obtain ⟨listed, listedMem, isPtr, _⟩ := rep.listed_mem member
    rw [← isPtr] at notPiece ⊢
    rw [fieldOf listedMem]
    simp only [notPiece, false_and, if_false]
  exact {
    spaced := rep.spaced
    pointer := by
      intro other member
      rcases List.mem_cons.mp member with isFreed | inOthers
      · exact isFreed ▸ rep.pointer piece List.mem_cons_self
      · exact rep.pointer other (List.mem_cons_of_mem _ inOthers)
    word := by
      intro other member
      rcases List.mem_cons.mp member with isFreed | inOthers
      · rw [isFreed, Piece.freed, fieldOf List.mem_cons_self]
        simp [wordOf]
      · rw [fieldOf (List.mem_cons_of_mem _ inOthers)]
        simp [rep.ptr_ne inOthers, rep.word other (List.mem_cons_of_mem _ inOthers)]
    length := by
      intro other member
      rcases List.mem_cons.mp member with isFreed | inOthers
      · exact isFreed ▸ rep.length piece List.mem_cons_self
      · exact rep.length other (List.mem_cons_of_mem _ inOthers)
    total := rep.total
    listed := by
      intro other ptr
      have before := rep.listed other ptr
      simp only [List.mem_cons, exists_eq_or_imp, isUsed, Bool.false_eq_true, false_and,
        and_false, false_or] at before ⊢
      by_cases same : other = index
      · subst same
        rw [Function.update_self, List.mem_cons, before]
        simp only [Piece.freed, mapped, and_true]
        exact or_congr_left eq_comm
      · rw [Function.update_of_ne same, before]
        have otherClass : getMapping piece.len ≠ some other := by
          rw [mapped]
          exact fun equal => same (Option.some.inj equal).symm
        simp [Piece.freed, otherClass]
    nodup := by
      intro other
      by_cases same : other = index
      · subst same
        rw [Function.update_self]
        exact List.nodup_cons.mpr ⟨notListed other, rep.nodup other⟩
      · rw [Function.update_of_ne same]
        exact rep.nodup other
    heads := by
      intro other
      rw [inserted, setBits_map, markFree_map, linkFirst_map]
      by_cases same : other = index
      · subst same
        rw [Function.update_self, Function.update_self, List.headD_cons]
      · rw [Function.update_of_ne same, Function.update_of_ne same]
        exact rep.heads other
    linked := by
      intro other
      by_cases same : other = index
      · subst same
        rw [Function.update_self]
        apply (rep.linked other).push (rep.nodup other)
        · rw [fieldOf List.mem_cons_self]
          simp
        · rw [fieldOf List.mem_cons_self, ← rep.heads]
          simp
        · intro ptr member
          rw [listedField member]
          simp
        · intro ptr member
          rw [listedField member, ← rep.heads]
          simp
      · rw [Function.update_of_ne same]
        apply (rep.linked other).congr
        · intro ptr member
          rw [listedField member]
          simp
        · intro ptr member
          rw [listedField member, if_neg]
          rintro ⟨isHead, _⟩
          have nonzero : tlsf.map index ≠ 0 := by
            intro isZero
            exact rep.zero_not_listed other ((isHead.trans isZero) ▸ member)
          exact same (rep.listed_unique member (isHead ▸ rep.map_mem nonzero))
    level1 := by
      apply level1_setBits _ (Nat.lt_trans sliLt (by decide))
      simpa using rep.level1
    level2 := by
      intro fli sli isSet
      by_cases same : (fli, sli) = index
      · rw [same, Function.update_self]
        exact List.cons_ne_nil _ _
      · rw [Function.update_of_ne same]
        apply rep.level2
        have sliSmall := BitVec.lt_of_getLsbD isSet
        rw [inserted, Tlsf.setBits] at isSet
        simp only [markFree_l2Free, linkFirst_l2Free] at isSet
        by_cases sameLevel : fli = index.1
        · subst sameLevel
          rw [Function.update_self, getLsbD_setBit _ sliSmall] at isSet
          have otherBit : sli ≠ index.2 := fun equal => same (by rw [equal])
          simpa [otherBit] using isSet
        · rwa [Function.update_of_ne sameLevel] at isSet
    counter := by
      have before := rep.counter
      have total := rep.total
      rw [inserted, setBits_free, markFree_free, linkFirst_free, length_linkFirst rep isUsed]
      simp only [freeTotal_cons, isUsed, Bool.false_eq_true, if_false, Nat.zero_add,
        Piece.freed, if_true, List.map_cons, List.sum_cons] at before total totalFree ⊢
      rw [before, addWord_of_lt (by omega), Nat.add_comm] }

theorem bitsExact_inserted (rep : Rep tlsf (piece :: others) lists)
    (mapped : getMapping piece.len = some index) (isExact : BitsExact tlsf lists) :
    BitsExact (inserted tlsf piece index)
      (Function.update lists index (piece.ptr :: lists index)) := by
  have sliLt : index.2 < 64 :=
    Nat.lt_trans (getMapping_lt mapped (rep.len_lt List.mem_cons_self)).2 (by decide)
  intro fli sli nonempty
  rw [inserted, Tlsf.setBits]
  simp only [markFree_l2Free, linkFirst_l2Free]
  by_cases same : (fli, sli) = index
  · cases same
    rw [Function.update_self, getLsbD_setBit _ sliLt]
    simp
  · rw [Function.update_of_ne same] at nonempty
    have before := isExact fli sli nonempty
    by_cases sameLevel : fli = index.1
    · subst sameLevel
      rw [Function.update_self, getLsbD_setBit _ (BitVec.lt_of_getLsbD before), before]
      rfl
    · rwa [Function.update_of_ne sameLevel]

end Insert

/-! ## remove_block -/

section Remove

variable {tlsf : Tlsf} {others : List Piece} {lists : Nat × Nat → List Nat}
  {piece : Piece} {index : Nat × Nat}

/-- The block is off its list and its bits are as before. -/
def unlinked (tlsf : Tlsf) (piece : Piece) (index : Nat × Nat) : Tlsf :=
  ((tlsf.unlinkNeighbours piece.ptr).unlinkHead piece.ptr index).markUsed piece.ptr

theorem Rep.self_listed (rep : Rep tlsf (piece :: others) lists) (isFree : piece.free = true)
    (mapped : getMapping piece.len = some index) : piece.ptr ∈ lists index :=
  (rep.listed index piece.ptr).mpr ⟨piece, List.mem_cons_self, rfl, isFree, mapped⟩

theorem Rep.next_mem (rep : Rep tlsf (piece :: others) lists) (isFree : piece.free = true)
    (mapped : getMapping piece.len = some index) (nonzero : tlsf.field piece.ptr .next ≠ 0) :
    tlsf.field piece.ptr .next ∈ lists index :=
  ((rep.linked index).next_mem (rep.self_listed isFree mapped)).resolve_left nonzero

theorem Rep.prev_mem (rep : Rep tlsf (piece :: others) lists) (isFree : piece.free = true)
    (mapped : getMapping piece.len = some index) (nonzero : tlsf.field piece.ptr .prev ≠ 0) :
    tlsf.field piece.ptr .prev ∈ lists index :=
  ((rep.linked index).prev_mem (rep.self_listed isFree mapped)).resolve_left nonzero

theorem Rep.field_unlinkNeighbours (rep : Rep tlsf (piece :: others) lists)
    (isFree : piece.free = true) (mapped : getMapping piece.len = some index) {other : Piece}
    (member : other ∈ piece :: others) (name : Field) :
    (tlsf.unlinkNeighbours piece.ptr).field other.ptr name =
      if other.ptr = tlsf.field piece.ptr .prev ∧ name = .next then tlsf.field piece.ptr .next
      else if other.ptr = tlsf.field piece.ptr .next ∧ name = .prev then
        tlsf.field piece.ptr .prev
      else tlsf.field other.ptr name := by
  have nonzero := (rep.pointer other member).1
  have links := @MallocSurvey.Tlsf1.field_unlinkNeighbours tlsf piece.ptr other.ptr name
    (fun isNext => rep.listed_separate (rep.next_mem isFree mapped isNext) member)
    (fun isPrev => rep.listed_separate (rep.prev_mem isFree mapped isPrev) member)
  rw [links]
  have prevIff : tlsf.field piece.ptr .prev ≠ 0 ∧ other.ptr = tlsf.field piece.ptr .prev ∧
      name = .next ↔ other.ptr = tlsf.field piece.ptr .prev ∧ name = .next :=
    and_iff_right_of_imp fun both => both.1 ▸ nonzero
  have nextIff : tlsf.field piece.ptr .next ≠ 0 ∧ other.ptr = tlsf.field piece.ptr .next ∧
      name = .prev ↔ other.ptr = tlsf.field piece.ptr .next ∧ name = .prev :=
    and_iff_right_of_imp fun both => both.1 ▸ nonzero
  simp only [prevIff, nextIff]

/-- The header of the block itself is not changed by unlinking its neighbours. -/
theorem Rep.field_unlinkNeighbours_self (rep : Rep tlsf (piece :: others) lists)
    (isFree : piece.free = true) (mapped : getMapping piece.len = some index) (name : Field) :
    (tlsf.unlinkNeighbours piece.ptr).field piece.ptr name = tlsf.field piece.ptr name := by
  have listed := rep.self_listed isFree mapped
  have nextNe := (rep.linked index).next_ne (rep.nodup index) (rep.zero_not_listed index) listed
  have prevNe := (rep.linked index).prev_ne (rep.nodup index) (rep.zero_not_listed index) listed
  rw [rep.field_unlinkNeighbours isFree mapped List.mem_cons_self,
    if_neg fun both => prevNe both.1.symm, if_neg fun both => nextNe both.1.symm]

/-- What `remove_block` writes to the headers. -/
theorem field_unlinked (rep : Rep tlsf (piece :: others) lists) (isFree : piece.free = true)
    (mapped : getMapping piece.len = some index) {other : Piece}
    (member : other ∈ piece :: others) (name : Field) :
    (unlinked tlsf piece index).field other.ptr name =
      if other.ptr = piece.ptr ∧ name = .len then piece.len
      else if other.ptr = tlsf.field piece.ptr .prev ∧ name = .next then
        tlsf.field piece.ptr .next
      else if other.ptr = tlsf.field piece.ptr .next ∧ name = .prev then
        tlsf.field piece.ptr .prev
      else tlsf.field other.ptr name := by
  have even := (rep.length piece List.mem_cons_self).1
  have pieceLt := rep.len_lt List.mem_cons_self
  have length : tlsf.field piece.ptr .len / 2 * 2 = piece.len := by
    rw [rep.word piece List.mem_cons_self, wordOf, isFree, Bool.toNat_true]
    omega
  rw [unlinked, field_markUsed, field_unlinkHead, rep.field_unlinkNeighbours_self isFree mapped,
    length, Tlsf.field_setField (rep.separate member List.mem_cons_self) pieceLt,
    field_unlinkHead, rep.field_unlinkNeighbours isFree mapped member]

theorem Rep.own_links (rep : Rep tlsf (piece :: others) lists) (isFree : piece.free = true)
    (mapped : getMapping piece.len = some index) :
    tlsf.field piece.ptr .next ≠ piece.ptr ∧ tlsf.field piece.ptr .prev ≠ piece.ptr :=
  ⟨(rep.linked index).next_ne (rep.nodup index) (rep.zero_not_listed index)
      (rep.self_listed isFree mapped),
    (rep.linked index).prev_ne (rep.nodup index) (rep.zero_not_listed index)
      (rep.self_listed isFree mapped)⟩

/-- The bits are cleared if the block had no successor. -/
theorem unlinkBlock_eq (rep : Rep tlsf (piece :: others) lists) (isFree : piece.free = true)
    (mapped : getMapping piece.len = some index) :
    tlsf.unlinkBlock piece.ptr index =
      if tlsf.field piece.ptr .next = 0 then
        (unlinked tlsf piece index).clearBits index.1 index.2
      else unlinked tlsf piece index := by
  obtain ⟨nextNe, prevNe⟩ := rep.own_links isFree mapped
  have nextField : (unlinked tlsf piece index).field piece.ptr .next =
      tlsf.field piece.ptr .next := by
    rw [field_unlinked rep isFree mapped List.mem_cons_self]
    simp [Ne.symm prevNe]
  rw [Tlsf.unlinkBlock, ← unlinked]
  simp only [nextField]

theorem field_unlinkBlock (rep : Rep tlsf (piece :: others) lists) (isFree : piece.free = true)
    (mapped : getMapping piece.len = some index) (other : Nat) (name : Field) :
    (tlsf.unlinkBlock piece.ptr index).field other name =
      (unlinked tlsf piece index).field other name := by
  rw [unlinkBlock_eq rep isFree mapped]
  split
  · rw [field_clearBits]
  · rfl

theorem l2Free_unlinkBlock (rep : Rep tlsf (piece :: others) lists)
    (isFree : piece.free = true) (mapped : getMapping piece.len = some index)
    {fli sli : Nat} (sliLt : sli < 64) :
    ((tlsf.unlinkBlock piece.ptr index).l2Free fli).getLsbD sli =
      ((tlsf.l2Free fli).getLsbD sli &&
        decide (¬ (tlsf.field piece.ptr .next = 0 ∧ (fli, sli) = index))) := by
  have sameBits : (unlinked tlsf piece index).l2Free = tlsf.l2Free := by
    simp [unlinked]
  rw [unlinkBlock_eq rep isFree mapped]
  by_cases isLast : tlsf.field piece.ptr .next = 0
  · rw [if_pos isLast, Tlsf.clearBits, sameBits]
    by_cases sameLevel : fli = index.1
    · subst sameLevel
      simp only [Function.update_self]
      rw [getLsbD_clearBit _ sliLt]
      simp [isLast, Prod.ext_iff]
    · simp only [Function.update_of_ne sameLevel]
      simp [Prod.ext_iff, sameLevel]
  · rw [if_neg isLast, sameBits]
    simp [isLast]

/-- The piece becomes used and leaves its list. -/
theorem Rep.remove (rep : Rep tlsf (piece :: others) lists) (isFree : piece.free = true)
    (mapped : getMapping piece.len = some index) :
    Rep (tlsf.unlinkBlock piece.ptr index) (piece.used :: others)
      (Function.update lists index ((lists index).erase piece.ptr)) := by
  have selfListed := rep.self_listed isFree mapped
  obtain ⟨nextNe, prevNe⟩ := rep.own_links isFree mapped
  have fieldOf : ∀ {other}, other ∈ piece :: others → ∀ name,
      (tlsf.unlinkBlock piece.ptr index).field other.ptr name =
        if other.ptr = piece.ptr ∧ name = .len then piece.len
        else if other.ptr = tlsf.field piece.ptr .prev ∧ name = .next then
          tlsf.field piece.ptr .next
        else if other.ptr = tlsf.field piece.ptr .next ∧ name = .prev then
          tlsf.field piece.ptr .prev
        else tlsf.field other.ptr name := by
    intro other member name
    rw [field_unlinkBlock rep isFree mapped, field_unlinked rep isFree mapped member]
  have listedField : ∀ {listIndex ptr}, ptr ∈ lists listIndex → ptr ≠ piece.ptr →
      ∀ name, (tlsf.unlinkBlock piece.ptr index).field ptr name =
        if ptr = tlsf.field piece.ptr .prev ∧ name = .next then tlsf.field piece.ptr .next
        else if ptr = tlsf.field piece.ptr .next ∧ name = .prev then
          tlsf.field piece.ptr .prev
        else tlsf.field ptr name := by
    intro listIndex ptr member notPiece name
    obtain ⟨listed, listedMem, isPtr, _⟩ := rep.listed_mem member
    rw [← isPtr] at notPiece ⊢
    rw [fieldOf listedMem]
    simp only [notPiece, false_and, if_false]
  have otherListed : ∀ {other ptr}, other ≠ index → ptr ∈ lists other →
      ptr ≠ piece.ptr ∧ ptr ≠ tlsf.field piece.ptr .prev ∧
        ptr ≠ tlsf.field piece.ptr .next := by
    intro other ptr different member
    have nonzero : ptr ≠ 0 := fun isZero => rep.zero_not_listed other (isZero ▸ member)
    refine ⟨?_, ?_, ?_⟩
    · intro equal
      exact different (rep.listed_unique member (equal ▸ selfListed))
    · intro equal
      have listed := rep.prev_mem isFree mapped (equal ▸ nonzero)
      exact different (rep.listed_unique member (equal ▸ listed))
    · intro equal
      have listed := rep.next_mem isFree mapped (equal ▸ nonzero)
      exact different (rep.listed_unique member (equal ▸ listed))
  exact {
    spaced := by
      rw [List.map_cons]
      exact rep.spaced
    pointer := by
      intro other member
      rcases List.mem_cons.mp member with isUsed | inOthers
      · exact isUsed ▸ rep.pointer piece List.mem_cons_self
      · exact rep.pointer other (List.mem_cons_of_mem _ inOthers)
    word := by
      intro other member
      rcases List.mem_cons.mp member with isUsed | inOthers
      · rw [isUsed, Piece.used, fieldOf List.mem_cons_self]
        simp [wordOf]
      · rw [fieldOf (List.mem_cons_of_mem _ inOthers)]
        simp [rep.ptr_ne inOthers, rep.word other (List.mem_cons_of_mem _ inOthers)]
    length := by
      intro other member
      rcases List.mem_cons.mp member with isUsed | inOthers
      · exact isUsed ▸ rep.length piece List.mem_cons_self
      · exact rep.length other (List.mem_cons_of_mem _ inOthers)
    total := rep.total
    listed := by
      intro other ptr
      have before := rep.listed other ptr
      simp only [List.mem_cons, exists_eq_or_imp, isFree, true_and] at before
      simp only [List.mem_cons, exists_eq_or_imp, Piece.used, Bool.false_eq_true, false_and,
        and_false, false_or]
      by_cases same : other = index
      · subst same
        rw [Function.update_self, (rep.nodup other).mem_erase_iff, before]
        constructor
        · rintro ⟨notPiece, isPiece | inOthers⟩
          · exact absurd isPiece.1.symm notPiece
          · exact inOthers
        · rintro ⟨listed, listedMem, isPtr, rest⟩
          exact ⟨isPtr ▸ rep.ptr_ne listedMem, .inr ⟨listed, listedMem, isPtr, rest⟩⟩
      · rw [Function.update_of_ne same, before]
        have otherClass : getMapping piece.len ≠ some other := by
          rw [mapped]
          exact fun equal => same (Option.some.inj equal).symm
        simp [otherClass]
    nodup := by
      intro other
      by_cases same : other = index
      · subst same
        rw [Function.update_self]
        exact (rep.nodup other).erase _
      · rw [Function.update_of_ne same]
        exact rep.nodup other
    heads := by
      intro other
      have isMap : (tlsf.unlinkBlock piece.ptr index).map =
          if tlsf.map index = piece.ptr then
            Function.update tlsf.map index (tlsf.field piece.ptr .next)
          else tlsf.map := by
        have sameMap : (tlsf.unlinkBlock piece.ptr index).map =
            (unlinked tlsf piece index).map := by
          rw [unlinkBlock_eq rep isFree mapped]
          split <;> simp
        rw [sameMap, unlinked, markUsed_map, unlinkHead_map, unlinkNeighbours_map,
          rep.field_unlinkNeighbours_self isFree mapped]
      rw [isMap]
      by_cases same : other = index
      · subst same
        rw [Function.update_self, (rep.linked other).headD_erase selfListed, ← rep.heads]
        split
        · rw [Function.update_self]
        · rfl
      · rw [Function.update_of_ne same, ← rep.heads]
        split
        · rw [Function.update_of_ne same]
        · rfl
    linked := by
      intro other
      by_cases same : other = index
      · subst same
        rw [Function.update_self]
        apply (rep.linked other).erase (rep.nodup other) (rep.zero_not_listed other)
          (rep.zero_not_listed other) selfListed
        · intro ptr member notPiece
          rw [listedField member notPiece]
          simp
        · intro ptr member notPiece
          rw [listedField member notPiece]
          simp
      · rw [Function.update_of_ne same]
        apply (rep.linked other).congr
        · intro ptr member
          obtain ⟨notPiece, notPrev, notNext⟩ := otherListed same member
          rw [listedField member notPiece]
          simp [notPrev]
        · intro ptr member
          obtain ⟨notPiece, notPrev, notNext⟩ := otherListed same member
          rw [listedField member notPiece]
          simp [notNext]
    level1 := by
      have unlinkedLevel : ∀ fli < 64, (unlinked tlsf piece index).l1Free.getLsbD fli = true ↔
          (unlinked tlsf piece index).l2Free fli ≠ 0#64 := by
        simpa [unlinked] using rep.level1
      rw [unlinkBlock_eq rep isFree mapped]
      split
      · exact level1_clearBits unlinkedLevel
      · exact unlinkedLevel
    level2 := by
      intro fli sli isSet
      rw [l2Free_unlinkBlock rep isFree mapped (BitVec.lt_of_getLsbD isSet), Bool.and_eq_true,
        decide_eq_true_eq] at isSet
      by_cases same : (fli, sli) = index
      · have nonzero : tlsf.field piece.ptr .next ≠ 0 := fun isZero => isSet.2 ⟨isZero, same⟩
        rw [same, Function.update_self]
        exact List.ne_nil_of_mem
          ((List.mem_erase_of_ne nextNe).mpr (rep.next_mem isFree mapped nonzero))
      · rw [Function.update_of_ne same]
        exact rep.level2 fli sli isSet.1
    counter := by
      have before := rep.counter
      have total := rep.total
      have totalFree := freeTotal_le (piece :: others)
      have isCounter : (tlsf.unlinkBlock piece.ptr index).free =
          subWord tlsf.free (tlsf.field piece.ptr .len / 2 * 2) := by
        have sameFree : (tlsf.unlinkBlock piece.ptr index).free =
            (unlinked tlsf piece index).free := by
          rw [unlinkBlock_eq rep isFree mapped]
          split <;> simp
        rw [sameFree, unlinked, markUsed_free, unlinkHead_free, unlinkNeighbours_free,
          field_unlinkHead, rep.field_unlinkNeighbours_self isFree mapped]
      have length : tlsf.blockLength piece.ptr = piece.len := rep.blockLength List.mem_cons_self
      rw [Tlsf.blockLength] at length
      rw [isCounter, length]
      simp only [freeTotal_cons, isFree, if_true, Piece.used, Bool.false_eq_true, if_false,
        Nat.zero_add, List.map_cons, List.sum_cons] at before total totalFree ⊢
      rw [before, subWord_of_le (by omega) (by omega)]
      omega }

/-- The bits stay exact unless the last one of several blocks is removed. -/
theorem bitsExact_unlinkBlock_iff (rep : Rep tlsf (piece :: others) lists)
    (isFree : piece.free = true) (mapped : getMapping piece.len = some index)
    (isExact : BitsExact tlsf lists) :
    BitsExact (tlsf.unlinkBlock piece.ptr index)
        (Function.update lists index ((lists index).erase piece.ptr)) ↔
      (tlsf.field piece.ptr .next ≠ 0 ∨ tlsf.field piece.ptr .prev = 0) := by
  have selfListed := rep.self_listed isFree mapped
  obtain ⟨nextNe, prevNe⟩ := rep.own_links isFree mapped
  have sliLt : index.2 < 64 :=
    Nat.lt_trans (getMapping_lt mapped (rep.len_lt List.mem_cons_self)).2 (by decide)
  constructor
  · intro stillExact
    by_contra isTail
    rw [not_or, not_not] at isTail
    have remains : (lists index).erase piece.ptr ≠ [] := List.ne_nil_of_mem
      ((List.mem_erase_of_ne prevNe).mpr (rep.prev_mem isFree mapped isTail.2))
    have isSet := stillExact index.1 index.2 (by rwa [Prod.mk.eta, Function.update_self])
    rw [l2Free_unlinkBlock rep isFree mapped sliLt] at isSet
    simp [isTail.1] at isSet
  · intro notTail fli sli nonempty
    by_cases same : (fli, sli) = index
    · cases same
      rw [Function.update_self] at nonempty
      have before := isExact fli sli (List.ne_nil_of_mem selfListed)
      rw [l2Free_unlinkBlock rep isFree mapped sliLt, before, Bool.true_and, decide_eq_true_eq]
      rintro ⟨isLast, _⟩
      have isFirst := notTail.resolve_left (not_not.mpr isLast)
      have alone := (rep.linked (fli, sli)).alone (rep.nodup _) (rep.zero_not_listed _)
        (rep.zero_not_listed _) selfListed isFirst isLast
      rw [alone, List.erase_cons_head] at nonempty
      exact nonempty rfl
    · rw [Function.update_of_ne same] at nonempty
      have before := isExact fli sli nonempty
      rw [l2Free_unlinkBlock rep isFree mapped (BitVec.lt_of_getLsbD before), before]
      simp [same]

end Remove

/-! ## What stays as it is -/

section Frames

variable {tlsf : Tlsf} {blk place : Nat} {index : Nat × Nat}

def Outside (blk place : Nat) : Prop := place < blk ∨ blk + sizeofBlk ≤ place

theorem linkFirst_memory (outside : Outside blk place)
    (outsideHead : tlsf.map index ≠ 0 → Outside (tlsf.map index) place) :
    (tlsf.linkFirst blk index).memory place = tlsf.memory place := by
  simp only [Tlsf.linkFirst]
  rw [Tlsf.setField_memory_outside outside, Tlsf.setField_memory_outside outside]
  split
  · next nonzero => exact Tlsf.setField_memory_outside (outsideHead nonzero)
  · rfl

theorem unlinkNeighbours_memory
    (outsideNext : tlsf.field blk .next ≠ 0 → Outside (tlsf.field blk .next) place)
    (outsidePrev : tlsf.field blk .prev ≠ 0 → Outside (tlsf.field blk .prev) place) :
    (tlsf.unlinkNeighbours blk).memory place = tlsf.memory place := by
  have first : (if tlsf.field blk .next ≠ 0 then
      tlsf.setField (tlsf.field blk .next) .prev (tlsf.field blk .prev) else tlsf).memory
        place = tlsf.memory place := by
    split
    · next nonzero => exact Tlsf.setField_memory_outside (outsideNext nonzero)
    · rfl
  simp only [Tlsf.unlinkNeighbours]
  by_cases isNull : tlsf.field blk .prev = 0
  · rw [if_neg (not_not.mpr isNull), first]
  · rw [if_pos isNull, Tlsf.setField_memory_outside (outsidePrev isNull), first]

theorem markFree_memory (outside : Outside blk place) :
    (tlsf.markFree blk).memory place = tlsf.memory place := by
  simp only [Tlsf.markFree]
  exact Tlsf.setField_memory_outside outside

theorem markUsed_memory (outside : Outside blk place) :
    (tlsf.markUsed blk).memory place = tlsf.memory place := by
  simp only [Tlsf.markUsed]
  exact Tlsf.setField_memory_outside outside

@[simp] theorem unlinkHead_memory :
    (tlsf.unlinkHead blk index).memory = tlsf.memory := by
  unfold Tlsf.unlinkHead
  split <;> rfl

theorem sameSpace_markFree : SameSpace tlsf (tlsf.markFree blk) := by
  unfold Tlsf.markFree
  exact ⟨rfl, rfl, rfl, rfl⟩

theorem sameSpace_setBits {fli sli : Nat} : SameSpace tlsf (tlsf.setBits fli sli) := by
  unfold Tlsf.setBits
  exact ⟨rfl, rfl, rfl, rfl⟩

theorem sameSpace_clearBits {fli sli : Nat} : SameSpace tlsf (tlsf.clearBits fli sli) := by
  unfold Tlsf.clearBits
  exact ⟨rfl, rfl, rfl, rfl⟩

theorem sameSpace_unlinkHead : SameSpace tlsf (tlsf.unlinkHead blk index) := by
  unfold Tlsf.unlinkHead
  split <;> exact ⟨rfl, rfl, rfl, rfl⟩

theorem sameSpace_markUsed : SameSpace tlsf (tlsf.markUsed blk) := by
  unfold Tlsf.markUsed
  exact ⟨rfl, rfl, rfl, rfl⟩

theorem sameSpace_unlinkBlock : SameSpace tlsf (tlsf.unlinkBlock blk index) := by
  have removed : SameSpace tlsf
      (((tlsf.unlinkNeighbours blk).unlinkHead blk index).markUsed blk) :=
    (sameSpace_unlinkNeighbours.trans sameSpace_unlinkHead).trans sameSpace_markUsed
  unfold Tlsf.unlinkBlock
  dsimp only
  split
  · exact removed.trans sameSpace_clearBits
  · exact removed

variable {others : List Piece} {lists : Nat × Nat → List Nat} {piece : Piece}

theorem sameOutside_inserted (rep : Rep tlsf (piece :: others) lists)
    (isUsed : piece.free = false) :
    SameOutside tlsf (inserted tlsf piece index) (piece.freed :: others) where
  space := (sameSpace_linkFirst.trans sameSpace_markFree).trans sameSpace_setBits
  addr := by
    intro other member
    have isPtr : ∃ old ∈ piece :: others, old.ptr = other.ptr := by
      rcases List.mem_cons.mp member with isFreed | inOthers
      · exact ⟨piece, List.mem_cons_self, by rw [isFreed, Piece.freed]⟩
      · exact ⟨other, List.mem_cons_of_mem _ inOthers, rfl⟩
    obtain ⟨old, oldMem, samePtr⟩ := isPtr
    rw [← samePtr, field_inserted rep isUsed oldMem]
    simp
  memory := by
    intro place outside
    have ownOutside : Outside piece.ptr place := outside piece.freed List.mem_cons_self rfl
    rw [inserted, Tlsf.setBits, markFree_memory ownOutside, linkFirst_memory ownOutside]
    intro nonzero
    obtain ⟨head, headMem, isPtr, isFree, _⟩ := rep.listed_mem (rep.map_mem nonzero)
    rcases List.mem_cons.mp headMem with isPiece | inOthers
    · exact isPtr ▸ isPiece ▸ ownOutside
    · exact isPtr ▸ outside head (List.mem_cons_of_mem _ inOthers) isFree

theorem sameOutside_unlinkBlock (rep : Rep tlsf (piece :: others) lists)
    (isFree : piece.free = true) (mapped : getMapping piece.len = some index) :
    SameOutside tlsf (tlsf.unlinkBlock piece.ptr index) (piece :: others) where
  space := sameSpace_unlinkBlock
  addr := by
    intro other member
    rw [field_unlinkBlock rep isFree mapped, field_unlinked rep isFree mapped member]
    simp
  memory := by
    intro place outside
    have listedOutside : ∀ {ptr}, ptr ∈ lists index → Outside ptr place := by
      intro ptr member
      obtain ⟨listed, listedMem, isPtr, listedFree, _⟩ := rep.listed_mem member
      exact isPtr ▸ outside listed listedMem listedFree
    have unlinkedMemory : (unlinked tlsf piece index).memory place = tlsf.memory place := by
      rw [unlinked, markUsed_memory (listedOutside (rep.self_listed isFree mapped)),
        unlinkHead_memory]
      exact unlinkNeighbours_memory
        (fun nonzero => listedOutside (rep.next_mem isFree mapped nonzero))
        (fun nonzero => listedOutside (rep.prev_mem isFree mapped nonzero))
    rw [unlinkBlock_eq rep isFree mapped]
    split
    · rw [Tlsf.clearBits, unlinkedMemory]
    · exact unlinkedMemory

end Frames

end MallocSurvey.Tlsf1
