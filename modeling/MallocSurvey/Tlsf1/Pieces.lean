import MallocSurvey.Library.Coalescing
import MallocSurvey.Library.DoublyLinked
import MallocSurvey.Tlsf1.Allocator
import Mathlib.Algebra.BigOperators.Group.List.Basic
import Mathlib.Data.List.Pairwise
import Mathlib.Data.List.Perm.Basic

/-! # Reading and writing block headers

Two headers are the same one or are apart, so a write changes one field of one
header. -/

namespace MallocSurvey.Tlsf1

open Library

/-- `sizeof(tlsf_blk_t)` -/
def sizeofBlk : Nat := 32

def Separate (left right : Nat) : Prop := left = right ∨ Apart left sizeofBlk right sizeofBlk

theorem Separate.refl (blk : Nat) : Separate blk blk := .inl rfl

theorem Field.offset_le (name : Field) : name.offset + 8 ≤ sizeofBlk := by
  cases name <;> decide

theorem Field.offset_apart {left right : Field} (different : left ≠ right) :
    left.offset + 8 ≤ right.offset ∨ right.offset + 8 ≤ left.offset := by
  cases left <;> cases right <;> first | exact absurd rfl different | decide

namespace Tlsf

variable {tlsf : Tlsf} {blk other value : Nat} {name otherName : Field}

/-- The one field that is written. -/
theorem field_setField (separate : Separate other blk) (fits : value < 2 ^ 64) :
    (tlsf.setField blk name value).field other otherName =
      if other = blk ∧ otherName = name then value else tlsf.field other otherName := by
  by_cases same : other = blk
  · subst same
    by_cases sameName : otherName = name
    · rw [if_pos ⟨rfl, sameName⟩, sameName]
      exact loadPointer_storePointer fits
    · rw [if_neg fun both => sameName both.2]
      apply loadPointer_storePointer_apart
      have apart := Field.offset_apart sameName
      unfold Apart
      omega
  · rw [if_neg fun both => same both.1]
    have apart := separate.resolve_left same
    apply loadPointer_storePointer_apart
    have left := name.offset_le
    have right := otherName.offset_le
    unfold Apart at *
    omega

/-- Fields whose bytes are apart do not change each other. -/
theorem field_setField_apart
    (apart : other + otherName.offset + 8 ≤ blk + name.offset ∨
      blk + name.offset + 8 ≤ other + otherName.offset) :
    (tlsf.setField blk name value).field other otherName = tlsf.field other otherName := by
  apply loadPointer_storePointer_apart
  unfold Apart
  omega

theorem setField_memory_outside {place : Nat}
    (outside : place < blk ∨ blk + sizeofBlk ≤ place) :
    (tlsf.setField blk name value).memory place = tlsf.memory place := by
  apply storeBytes_outside
  have bound := name.offset_le
  omega

/-- The first two fields are the header of a used block. -/
theorem setField_memory_header {place : Nat} (inHeader : name.offset + 8 ≤ Tlsf1.blkHdrLen)
    (outside : place < blk ∨ blk + Tlsf1.blkHdrLen ≤ place) :
    (tlsf.setField blk name value).memory place = tlsf.memory place := by
  apply storeBytes_outside
  omega

/-- The program writes a byte. -/
def write (tlsf : Tlsf) (place : Nat) (byte : UInt8) : Tlsf :=
  { tlsf with memory := Function.update tlsf.memory place byte }

theorem field_write {place : Nat} {byte : UInt8}
    (outside : place < blk ∨ blk + sizeofBlk ≤ place) :
    (tlsf.write place byte).field blk name = tlsf.field blk name := by
  have bound := name.offset_le
  apply loadPointer_congr
  intro other low high
  apply Function.update_of_ne
  omega

theorem field_lt (tlsf : Tlsf) (blk : Nat) (name : Field) : tlsf.field blk name < 2 ^ 64 :=
  loadBytes_lt tlsf.memory 8 _

theorem roundedSpace_eq {size : Nat} (small : size < 2 ^ 64) :
    roundedSpace size = size / mbs * mbs := by
  unfold roundedSpace roundup2 addWord subWord mbs
  omega

end Tlsf

/-- Everything but the lists of free blocks and the memory is unchanged. -/
structure SameSpace (old new : Tlsf) : Prop where
  baseptr : new.baseptr = old.baseptr
  size : new.size = old.size
  blkHdrLen : new.blkHdrLen = old.blkHdrLen
  blklist : new.blklist = old.blklist

theorem SameSpace.refl (tlsf : Tlsf) : SameSpace tlsf tlsf := ⟨rfl, rfl, rfl, rfl⟩

theorem SameSpace.trans {first second third : Tlsf} (left : SameSpace first second)
    (right : SameSpace second third) : SameSpace first third :=
  ⟨right.baseptr.trans left.baseptr, right.size.trans left.size,
    right.blkHdrLen.trans left.blkHdrLen, right.blklist.trans left.blklist⟩

/-! ## Linking and unlinking -/

section Lists

variable {tlsf : Tlsf} {blk : Nat} {index : Nat × Nat}

theorem sameSpace_linkFirst : SameSpace tlsf (tlsf.linkFirst blk index) := by
  unfold Tlsf.linkFirst
  dsimp only
  split
  · exact ⟨rfl, rfl, rfl, rfl⟩
  · exact ⟨rfl, rfl, rfl, rfl⟩

theorem sameSpace_unlinkNeighbours : SameSpace tlsf (tlsf.unlinkNeighbours blk) := by
  unfold Tlsf.unlinkNeighbours
  dsimp only
  split <;> split <;> exact ⟨rfl, rfl, rfl, rfl⟩

/-- The links after `linkFirst`. -/
theorem field_linkFirst {other : Nat} {name : Field} (separateBlk : Separate other blk)
    (separateHead : tlsf.map index ≠ 0 → Separate other (tlsf.map index))
    (headNe : tlsf.map index ≠ blk) (fits : blk < 2 ^ 64) (headFits : tlsf.map index < 2 ^ 64) :
    (tlsf.linkFirst blk index).field other name =
      if other = blk ∧ name = .next then tlsf.map index
      else if other = blk ∧ name = .prev then 0
      else if other = tlsf.map index ∧ other ≠ 0 ∧ name = .prev then blk
      else tlsf.field other name := by
  have zeroFits : 0 < 2 ^ 64 := by decide
  have unfolded : (tlsf.linkFirst blk index).field other name =
      (((if tlsf.map index ≠ 0 then tlsf.setField (tlsf.map index) .prev blk
        else tlsf).setField blk .prev 0).setField blk .next (tlsf.map index)).field
          other name := rfl
  rw [unfolded, Tlsf.field_setField separateBlk headFits,
    Tlsf.field_setField separateBlk zeroFits]
  by_cases isBlk : other = blk
  · subst isBlk
    have notHead : ¬ (other = tlsf.map index ∧ other ≠ 0 ∧ name = .prev) :=
      fun both => headNe both.1.symm
    rw [if_neg notHead]
    split
    · rfl
    · split
      · rfl
      · split
        · next nonzero =>
            rw [Tlsf.field_setField (separateHead nonzero) fits,
              if_neg fun both => headNe both.1.symm]
        · rfl
  · simp only [isBlk, false_and, if_false]
    split
    · next nonzero =>
        rw [Tlsf.field_setField (separateHead nonzero) fits]
        by_cases isHead : other = tlsf.map index
        · have otherNonzero : other ≠ 0 := isHead ▸ nonzero
          simp [isHead, nonzero]
        · simp [isHead]
    · next isNull =>
        rw [if_neg]
        rintro ⟨isHead, otherNonzero, _⟩
        exact otherNonzero (isHead.trans (not_not.mp isNull))

/-- The links after `unlinkNeighbours`. -/
theorem field_unlinkNeighbours {other : Nat} {name : Field}
    (separateNext : tlsf.field blk .next ≠ 0 → Separate other (tlsf.field blk .next))
    (separatePrev : tlsf.field blk .prev ≠ 0 → Separate other (tlsf.field blk .prev)) :
    (tlsf.unlinkNeighbours blk).field other name =
      if tlsf.field blk .prev ≠ 0 ∧ other = tlsf.field blk .prev ∧ name = .next then
        tlsf.field blk .next
      else if tlsf.field blk .next ≠ 0 ∧ other = tlsf.field blk .next ∧ name = .prev then
        tlsf.field blk .prev
      else tlsf.field other name := by
  have nextFits := tlsf.field_lt blk .next
  have prevFits := tlsf.field_lt blk .prev
  unfold Tlsf.unlinkNeighbours
  dsimp only
  generalize tlsf.field blk .next = next at *
  generalize tlsf.field blk .prev = prev at *
  have first : (if next ≠ 0 then tlsf.setField next .prev prev else tlsf).field other name =
      if next ≠ 0 ∧ other = next ∧ name = .prev then prev else tlsf.field other name := by
    by_cases isNull : next = 0
    · simp [isNull]
    · rw [if_pos isNull, Tlsf.field_setField (separateNext isNull) prevFits]
      simp [isNull]
  by_cases isNull : prev = 0
  · rw [if_neg (not_not.mpr isNull), first]
    simp [isNull]
  · rw [if_pos isNull, Tlsf.field_setField (separatePrev isNull) nextFits, first]
    simp [isNull]

end Lists

end MallocSurvey.Tlsf1

/-! # The pieces of the space

The space is cut into pieces, each with its header and used or free. The free ones are
on the lists of their size classes. Inserting and removing a block change one piece
from used to free and back. -/

namespace MallocSurvey.Tlsf1

open Library

/-- The contents of the length field. -/
def wordOf (piece : Piece) : Nat := piece.len + piece.free.toNat

/-- The headers in memory are those of the pieces, and the lists, the bits and the
counter are those of the free ones. -/
structure Rep (tlsf : Tlsf) (pieces : List Piece) (lists : Nat × Nat → List Nat) : Prop where
  spaced : (pieces.map Piece.ptr).Pairwise fun left right =>
    Apart left sizeofBlk right sizeofBlk
  pointer : ∀ piece ∈ pieces, piece.ptr ≠ 0 ∧ piece.ptr < 2 ^ 64
  word : ∀ piece ∈ pieces, tlsf.field piece.ptr .len = wordOf piece
  length : ∀ piece ∈ pieces, piece.len % 2 = 0 ∧ mbs ≤ piece.len
  total : (pieces.map Piece.len).sum < 2 ^ 64
  listed : ∀ index ptr, ptr ∈ lists index ↔
    ∃ piece ∈ pieces, piece.ptr = ptr ∧ piece.free = true ∧ getMapping piece.len = some index
  nodup : ∀ index, (lists index).Nodup
  heads : ∀ index, tlsf.map index = (lists index).headD 0
  linked : ∀ index, DoublyLinked 0 (tlsf.field · .next) (tlsf.field · .prev) 0 (lists index)
  level1 : ∀ fli < 64, tlsf.l1Free.getLsbD fli = true ↔ tlsf.l2Free fli ≠ 0#64
  level2 : ∀ fli sli, (tlsf.l2Free fli).getLsbD sli = true → lists (fli, sli) ≠ []
  counter : tlsf.free = freeTotal pieces

/-- The second-level bits are set for the nonempty lists. -/
def BitsExact (tlsf : Tlsf) (lists : Nat × Nat → List Nat) : Prop :=
  ∀ fli sli, lists (fli, sli) ≠ [] → (tlsf.l2Free fli).getLsbD sli = true

/-- Only headers of free pieces differ, and not in their addresses. -/
structure SameOutside (old new : Tlsf) (pieces : List Piece) : Prop where
  space : SameSpace old new
  addr : ∀ piece ∈ pieces, new.field piece.ptr .addr = old.field piece.ptr .addr
  memory : ∀ place,
    (∀ piece ∈ pieces, piece.free = true →
      place < piece.ptr ∨ piece.ptr + sizeofBlk ≤ place) →
    new.memory place = old.memory place

namespace Rep

variable {tlsf : Tlsf} {pieces others : List Piece} {lists : Nat × Nat → List Nat}
  {piece : Piece} {index : Nat × Nat}

theorem perm (rep : Rep tlsf pieces lists) {reordered : List Piece}
    (perm : pieces.Perm reordered) : Rep tlsf reordered lists where
  spaced := by
    exact ((perm.map Piece.ptr).pairwise_iff fun apart => Apart.symm apart).mp rep.spaced
  pointer other member := rep.pointer other (perm.mem_iff.mpr member)
  word other member := rep.word other (perm.mem_iff.mpr member)
  length other member := rep.length other (perm.mem_iff.mpr member)
  total := (perm.map Piece.len).sum_nat ▸ rep.total
  listed index ptr := by
    rw [rep.listed]
    simp only [perm.mem_iff]
  nodup := rep.nodup
  heads := rep.heads
  linked := rep.linked
  level1 := rep.level1
  level2 := rep.level2
  counter := rep.counter.trans (freeTotal_perm perm)

theorem separate (rep : Rep tlsf pieces lists) {left right : Piece} (leftMem : left ∈ pieces)
    (rightMem : right ∈ pieces) : Separate left.ptr right.ptr := by
  have : Std.Symm fun left right => Apart left sizeofBlk right sizeofBlk :=
    ⟨fun _ _ => Apart.symm⟩
  by_cases same : left.ptr = right.ptr
  · exact .inl same
  · exact .inr (rep.spaced.forall (List.mem_map_of_mem leftMem) (List.mem_map_of_mem rightMem)
      same)

theorem ptr_ne (rep : Rep tlsf (piece :: others) lists) {other : Piece}
    (member : other ∈ others) : other.ptr ≠ piece.ptr := by
  have apart := (List.pairwise_cons.mp rep.spaced).1 _ (List.mem_map_of_mem member)
  unfold Apart sizeofBlk at apart
  omega

theorem len_lt (rep : Rep tlsf pieces lists) {other : Piece} (member : other ∈ pieces) :
    other.len < 2 ^ 64 := by
  obtain ⟨before, after, isSplit⟩ := List.append_of_mem member
  have total := rep.total
  rw [isSplit, List.map_append, List.map_cons, List.sum_append, List.sum_cons] at total
  omega

theorem blockLength (rep : Rep tlsf pieces lists) (member : piece ∈ pieces) :
    tlsf.blockLength piece.ptr = piece.len := by
  have even := (rep.length piece member).1
  rw [Tlsf.blockLength, rep.word piece member, wordOf]
  cases piece.free <;> simp only [Bool.toNat_false, Bool.toNat_true] <;> omega

theorem blockFree (rep : Rep tlsf pieces lists) (member : piece ∈ pieces) :
    tlsf.blockFree piece.ptr = piece.free := by
  have even := (rep.length piece member).1
  rw [Tlsf.blockFree, rep.word piece member, wordOf]
  cases piece.free <;> simp only [Bool.toNat_false, Bool.toNat_true, decide_eq_true_eq,
    decide_eq_false_iff_not] <;> omega

theorem listed_mem (rep : Rep tlsf pieces lists) {ptr : Nat} (member : ptr ∈ lists index) :
    ∃ other ∈ pieces, other.ptr = ptr ∧ other.free = true ∧
      getMapping other.len = some index :=
  (rep.listed index ptr).mp member

theorem zero_not_listed (rep : Rep tlsf pieces lists) (index : Nat × Nat) :
    0 ∉ lists index := by
  intro member
  obtain ⟨other, isPiece, isZero, _⟩ := rep.listed_mem member
  exact (rep.pointer other isPiece).1 isZero

/-- A list is empty exactly if its head is null. -/
theorem map_eq_zero_iff (rep : Rep tlsf pieces lists) (index : Nat × Nat) :
    tlsf.map index = 0 ↔ lists index = [] := by
  rw [rep.heads]
  cases isList : lists index with
  | nil => exact iff_of_true rfl rfl
  | cons first rest =>
      refine iff_of_false ?_ (List.cons_ne_nil _ _)
      intro isZero
      exact rep.zero_not_listed index (isList ▸ isZero ▸ List.mem_cons_self)

theorem map_mem (rep : Rep tlsf pieces lists) (nonzero : tlsf.map index ≠ 0) :
    tlsf.map index ∈ lists index := by
  have isHead := rep.heads index
  cases isList : lists index with
  | nil => exact absurd ((rep.map_eq_zero_iff index).mpr isList) nonzero
  | cons first rest =>
      rw [isHead, isList]
      exact List.mem_cons_self

/-- A listed block and any header are separate. -/
theorem listed_separate (rep : Rep tlsf pieces lists) {ptr : Nat} (member : ptr ∈ lists index)
    {other : Piece} (isPiece : other ∈ pieces) : Separate other.ptr ptr := by
  obtain ⟨listedPiece, listedMem, isPtr, _⟩ := rep.listed_mem member
  exact isPtr ▸ rep.separate isPiece listedMem

theorem listed_unique (rep : Rep tlsf pieces lists) {ptr : Nat} {otherIndex : Nat × Nat}
    (member : ptr ∈ lists index) (otherMember : ptr ∈ lists otherIndex) :
    index = otherIndex := by
  obtain ⟨left, leftMem, leftPtr, leftFree, leftMapped⟩ := rep.listed_mem member
  obtain ⟨right, rightMem, rightPtr, rightFree, rightMapped⟩ := rep.listed_mem otherMember
  have words := (rep.word left leftMem).symm.trans
    ((leftPtr.trans rightPtr.symm) ▸ rep.word right rightMem)
  have sameLen : left.len = right.len := by
    rw [wordOf, wordOf, leftFree, rightFree] at words
    exact Nat.add_right_cancel words
  rw [sameLen, rightMapped] at leftMapped
  exact (Option.some.inj leftMapped).symm

theorem nodup_ptr (rep : Rep tlsf pieces lists) : (pieces.map Piece.ptr).Nodup := by
  apply rep.spaced.imp
  intro left right apart same
  unfold Apart sizeofBlk at apart
  omega

theorem ptr_not_mem {before after : List Piece}
    (rep : Rep tlsf (before ++ piece :: after) lists) :
    piece.ptr ∉ before.map Piece.ptr ∧ piece.ptr ∉ after.map Piece.ptr := by
  have front := rep.perm List.perm_middle
  constructor
  · intro member
    obtain ⟨other, inBefore, samePtr⟩ := List.mem_map.mp member
    exact front.ptr_ne (List.mem_append_left _ inBefore) samePtr
  · intro member
    obtain ⟨other, inAfter, samePtr⟩ := List.mem_map.mp member
    exact front.ptr_ne (List.mem_append_right _ inAfter) samePtr

theorem unusedSpace_eq (rep : Rep tlsf pieces lists) :
    tlsf.unusedSpace = (((pieces.map Piece.ptr).filter tlsf.blockFree).map
      tlsf.blockLength).sum := by
  have sameFree : pieces.filter (tlsf.blockFree ∘ Piece.ptr) =
      pieces.filter Piece.free := by
    apply List.filter_congr
    intro piece member
    rw [Function.comp_apply, rep.blockFree member]
  have sameLen : (pieces.filter Piece.free).map (tlsf.blockLength ∘ Piece.ptr) =
      (pieces.filter Piece.free).map Piece.len := by
    apply List.map_congr_left
    intro piece member
    rw [Function.comp_apply, rep.blockLength (List.mem_of_mem_filter member)]
  rw [Tlsf.unusedSpace, rep.counter, freeTotal, List.filter_map, List.map_map, sameFree, sameLen]

end Rep

end MallocSurvey.Tlsf1
