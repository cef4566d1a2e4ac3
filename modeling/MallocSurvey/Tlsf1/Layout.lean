import MallocSurvey.Tlsf1.Lists

/-! # Changing the layout

Merging and splitting first take the blocks off their lists and then rewrite the
headers. What the two kinds of headers do differently is `Physical`. -/

namespace MallocSurvey.Tlsf1

open Library

/-- The class of a length of at least `TLSF_MBS`. -/
def classOf (len : Nat) : Nat × Nat :=
  (Nat.log2 len, (len - 2 ^ Nat.log2 len) / 2 ^ (Nat.log2 len - 5))

/-- The bytes from its header on that may be written for a block. The block itself is
included if it is free. -/
def span (piece : Piece) : Nat := if piece.free then sizeofBlk + piece.len else blkHdrLen

/-- The place is in no header. -/
def Untouched (pieces : List Piece) (place : Nat) : Prop :=
  ∀ piece ∈ pieces, place < piece.ptr ∨ piece.ptr + span piece ≤ place

/-- The lists, the bits and the counter are the same. -/
structure SameLists (old new : Tlsf) : Prop where
  map : new.map = old.map
  l1Free : new.l1Free = old.l1Free
  l2Free : new.l2Free = old.l2Free
  free : new.free = old.free

/-- Some used pieces were replaced by others. -/
structure Relaid (old new : Tlsf) (news others : List Piece) : Prop where
  lists : SameLists old new
  others : ∀ piece ∈ others, ∀ name ≠ Field.addr,
    new.field piece.ptr name = old.field piece.ptr name
  words : ∀ piece ∈ news, new.field piece.ptr .len = piece.len

theorem span_of_free {piece : Piece} (isFree : piece.free = true) :
    span piece = sizeofBlk + piece.len :=
  if_pos isFree

theorem blkHdrLen_le_span (piece : Piece) : blkHdrLen ≤ span piece := by
  unfold span
  split
  · exact Nat.le_add_right_of_le (by decide)
  · exact Nat.le_refl _

theorem Untouched.mono {pieces fewer : List Piece} {place : Nat}
    (untouched : Untouched pieces place)
    (within : ∀ piece ∈ fewer, ∃ wider ∈ pieces, wider.ptr = piece.ptr ∧
      (piece.free = true → wider = piece)) : Untouched fewer place := by
  intro piece member
  obtain ⟨wider, widerMem, samePtr, sameFree⟩ := within piece member
  have outside := untouched wider widerMem
  cases isFree : piece.free with
  | true => exact sameFree isFree ▸ outside
  | false =>
      have header := blkHdrLen_le_span wider
      rw [samePtr] at outside
      rw [span, isFree, if_neg Bool.false_ne_true]
      omega

theorem Untouched.header {pieces : List Piece} {piece : Piece} {place : Nat}
    (untouched : Untouched pieces place) (member : piece ∈ pieces) :
    place < piece.ptr ∨ piece.ptr + blkHdrLen ≤ place := by
  have outside := untouched piece member
  have header := blkHdrLen_le_span piece
  omega

theorem Untouched.outside {pieces : List Piece} {place : Nat}
    (untouched : Untouched pieces place) :
    ∀ piece ∈ pieces, piece.free = true →
      place < piece.ptr ∨ piece.ptr + sizeofBlk ≤ place := by
  intro piece member isFree
  have outside := untouched piece member
  rw [span_of_free isFree] at outside
  omega

theorem mapped_classOf {len : Nat} (large : mbs ≤ len) : getMapping len = some (classOf len) :=
  getMapping_eq large

theorem Piece.used_eq {piece : Piece} (isUsed : piece.free = false) : piece.used = piece := by
  cases piece
  cases isUsed
  rfl

namespace Rep

variable {tlsf next : Tlsf} {olds news others : List Piece} {lists : Nat × Nat → List Nat}
  {piece : Piece}

/-- Used pieces are replaced by other used pieces. -/
theorem relayout (rep : Rep tlsf (olds ++ others) lists) (relaid : Relaid tlsf next news others)
    (oldsUsed : ∀ piece ∈ olds, piece.free = false)
    (newsUsed : ∀ piece ∈ news, piece.free = false)
    (spaced : ((news ++ others).map Piece.ptr).Pairwise fun left right =>
      Library.Apart left sizeofBlk right sizeofBlk)
    (pointer : ∀ piece ∈ news, piece.ptr ≠ 0 ∧ piece.ptr < 2 ^ 64)
    (length : ∀ piece ∈ news, piece.len % 2 = 0 ∧ mbs ≤ piece.len)
    (total : ((news ++ others).map Piece.len).sum < 2 ^ 64) :
    Rep next (news ++ others) lists := by
  have listedOthers : ∀ {index ptr}, ptr ∈ lists index → ∃ piece ∈ others, piece.ptr = ptr := by
    intro index ptr member
    obtain ⟨piece, isPiece, isPtr, isFree, _⟩ := rep.listed_mem member
    rcases List.mem_append.mp isPiece with isOld | isOther
    · rw [oldsUsed piece isOld] at isFree
      cases isFree
    · exact ⟨piece, isOther, isPtr⟩
  exact {
    spaced := spaced
    pointer := by
      intro piece member
      rcases List.mem_append.mp member with isNew | isOther
      · exact pointer piece isNew
      · exact rep.pointer piece (List.mem_append_right _ isOther)
    word := by
      intro piece member
      rcases List.mem_append.mp member with isNew | isOther
      · rw [relaid.words piece isNew, wordOf, newsUsed piece isNew]
        rfl
      · rw [relaid.others piece isOther .len (by decide)]
        exact rep.word piece (List.mem_append_right _ isOther)
    length := by
      intro piece member
      rcases List.mem_append.mp member with isNew | isOther
      · exact length piece isNew
      · exact rep.length piece (List.mem_append_right _ isOther)
    total := total
    listed := by
      intro index ptr
      rw [rep.listed]
      constructor
      · rintro ⟨piece, member, isPtr, isFree, mapped⟩
        rcases List.mem_append.mp member with isOld | isOther
        · rw [oldsUsed piece isOld] at isFree
          cases isFree
        · exact ⟨piece, List.mem_append_right _ isOther, isPtr, isFree, mapped⟩
      · rintro ⟨piece, member, isPtr, isFree, mapped⟩
        rcases List.mem_append.mp member with isNew | isOther
        · rw [newsUsed piece isNew] at isFree
          cases isFree
        · exact ⟨piece, List.mem_append_right _ isOther, isPtr, isFree, mapped⟩
    nodup := rep.nodup
    heads := by
      intro index
      rw [relaid.lists.map]
      exact rep.heads index
    linked := by
      intro index
      apply (rep.linked index).congr
      · intro ptr member
        obtain ⟨piece, isOther, isPtr⟩ := listedOthers member
        rw [← isPtr]
        exact relaid.others piece isOther .next (by decide)
      · intro ptr member
        obtain ⟨piece, isOther, isPtr⟩ := listedOthers member
        rw [← isPtr]
        exact relaid.others piece isOther .prev (by decide)
    level1 := by
      rw [relaid.lists.l1Free, relaid.lists.l2Free]
      exact rep.level1
    level2 := by
      rw [relaid.lists.l2Free]
      exact rep.level2
    counter := by
      rw [relaid.lists.free, rep.counter, freeTotal_append, freeTotal_append,
        freeTotal_of_used oldsUsed, freeTotal_of_used newsUsed] }

end Rep

/-! ## Taking a block off its list -/

section Delist

variable {tlsf : Tlsf} {others : List Piece} {lists : Nat × Nat → List Nat} {piece : Piece}

/-- The block is off its list if it was free. -/
def delisted (tlsf : Tlsf) (piece : Piece) : Tlsf :=
  if piece.free then tlsf.unlinkBlock piece.ptr (classOf piece.len) else tlsf

def delistedLists (lists : Nat × Nat → List Nat) (piece : Piece) : Nat × Nat → List Nat :=
  if piece.free then
    Function.update lists (classOf piece.len) ((lists (classOf piece.len)).erase piece.ptr)
  else lists

theorem delisted_of_free (isFree : piece.free = true) :
    delisted tlsf piece = tlsf.unlinkBlock piece.ptr (classOf piece.len) :=
  if_pos isFree

theorem delisted_of_used (isUsed : piece.free = false) : delisted tlsf piece = tlsf :=
  if_neg (by rw [isUsed]; exact Bool.false_ne_true)

theorem delistedLists_of_free (isFree : piece.free = true) :
    delistedLists lists piece = Function.update lists (classOf piece.len)
      ((lists (classOf piece.len)).erase piece.ptr) :=
  if_pos isFree

theorem delistedLists_of_used (isUsed : piece.free = false) :
    delistedLists lists piece = lists :=
  if_neg (by rw [isUsed]; exact Bool.false_ne_true)

/-- The block is not the last one of several blocks of a class. -/
def NotTail (tlsf : Tlsf) (blk : Nat) : Prop :=
  tlsf.field blk .next ≠ 0 ∨ tlsf.field blk .prev = 0

theorem removeIfFree_eq (rep : Rep tlsf (piece :: others) lists) :
    tlsf.removeIfFree piece.ptr = some (delisted tlsf piece) := by
  have nonzero := (rep.pointer piece List.mem_cons_self).1
  have large := (rep.length piece List.mem_cons_self).2
  rw [Tlsf.removeIfFree, rep.blockFree List.mem_cons_self, rep.blockLength List.mem_cons_self,
    delisted, mapped_classOf large]
  cases isFree : piece.free with
  | true => simp [Tlsf.removeBlock, nonzero]
  | false => simp

theorem Rep.delist (rep : Rep tlsf (piece :: others) lists) :
    Rep (delisted tlsf piece) (piece.used :: others) (delistedLists lists piece) := by
  have large := (rep.length piece List.mem_cons_self).2
  cases isFree : piece.free with
  | true =>
      rw [delisted_of_free isFree, delistedLists_of_free isFree]
      exact rep.remove isFree (mapped_classOf large)
  | false =>
      rw [delisted_of_used isFree, delistedLists_of_used isFree, Piece.used_eq isFree]
      exact rep

theorem bitsExact_delisted (rep : Rep tlsf (piece :: others) lists)
    (isExact : BitsExact tlsf lists) (notTail : piece.free = true → NotTail tlsf piece.ptr) :
    BitsExact (delisted tlsf piece) (delistedLists lists piece) := by
  have large := (rep.length piece List.mem_cons_self).2
  cases isFree : piece.free with
  | true =>
      rw [delisted_of_free isFree, delistedLists_of_free isFree]
      exact (bitsExact_unlinkBlock_iff rep isFree (mapped_classOf large) isExact).mpr
        (notTail isFree)
  | false =>
      rw [delisted_of_used isFree, delistedLists_of_used isFree]
      exact isExact

theorem SameOutside.refl (tlsf : Tlsf) (pieces : List Piece) : SameOutside tlsf tlsf pieces :=
  ⟨SameSpace.refl tlsf, fun _ _ => rfl, fun _ _ => rfl⟩

theorem sameOutside_delisted (rep : Rep tlsf (piece :: others) lists) :
    SameOutside tlsf (delisted tlsf piece) (piece :: others) := by
  have large := (rep.length piece List.mem_cons_self).2
  cases isFree : piece.free with
  | true =>
      rw [delisted_of_free isFree]
      exact sameOutside_unlinkBlock rep isFree (mapped_classOf large)
  | false =>
      rw [delisted_of_used isFree]
      exact .refl tlsf _

theorem SameOutside.perm {old new : Tlsf} {pieces reordered : List Piece}
    (same : SameOutside old new pieces) (perm : pieces.Perm reordered) :
    SameOutside old new reordered where
  space := same.space
  addr piece member := same.addr piece (perm.mem_iff.mpr member)
  memory place outside :=
    same.memory place fun piece member => outside piece (perm.mem_iff.mp member)

/-- The links of the other blocks of the list. -/
theorem field_delisted (rep : Rep tlsf (piece :: others) lists) {other : Piece}
    (member : other ∈ others) (name : Field) :
    (delisted tlsf piece).field other.ptr name =
      if piece.free = true ∧ other.ptr = tlsf.field piece.ptr .prev ∧ name = .next then
        tlsf.field piece.ptr .next
      else if piece.free = true ∧ other.ptr = tlsf.field piece.ptr .next ∧ name = .prev then
        tlsf.field piece.ptr .prev
      else tlsf.field other.ptr name := by
  have large := (rep.length piece List.mem_cons_self).2
  cases isFree : piece.free with
  | true =>
      rw [delisted_of_free isFree, field_unlinkBlock rep isFree (mapped_classOf large),
        field_unlinked rep isFree (mapped_classOf large) (List.mem_cons_of_mem _ member)]
      simp [rep.ptr_ne member]
  | false =>
      rw [delisted_of_used isFree]
      simp

end Delist

end MallocSurvey.Tlsf1
