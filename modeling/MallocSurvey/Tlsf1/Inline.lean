import MallocSurvey.Tlsf1.Taking

/-! # Inlined headers

A header is in front of its block. The next one is found by the length and the previous
one by `prevblk`. -/

namespace MallocSurvey.Tlsf1

open Library

/-- Every header remembers the one before it. -/
def BackLinked (prevblk : Nat → Nat) : Nat → List Piece → Prop
  | _, [] => True
  | before, piece :: rest => prevblk piece.ptr = before ∧ BackLinked prevblk piece.ptr rest

/-- The headers and their blocks tile the space. -/
structure Inline (baseptr space : Nat) (tlsf : Tlsf) (pieces : List Piece) : Prop where
  header : tlsf.blkHdrLen = blkHdrLen
  tiles : Tiles id blkHdrLen baseptr pieces (baseptr + space)
  back : BackLinked (tlsf.field · .addr) 0 pieces
  base : tlsf.baseptr = baseptr
  whole : tlsf.size = space
  nonzero : baseptr ≠ 0
  fits : baseptr + space < 2 ^ 64

/-- The last piece of a list, null if there is none. -/
def lastPtr (pieces : List Piece) (before : Nat) : Nat :=
  (pieces.getLast?.map Piece.ptr).getD before

variable {tlsf : Tlsf} {before after pieces : List Piece} {piece left right : Piece}
  {lists : Nat × Nat → List Nat} {baseptr space : Nat} {prevblk newPrevblk : Nat → Nat}

theorem backLinked_append {front rest : List Piece} {start : Nat} :
    BackLinked prevblk start (front ++ rest) ↔
      BackLinked prevblk start front ∧ BackLinked prevblk (lastPtr front start) rest := by
  induction front generalizing start with
  | nil => simp [BackLinked, lastPtr]
  | cons first front induction =>
      rw [List.cons_append, BackLinked, BackLinked, induction, and_assoc]
      cases front with
      | nil => rfl
      | cons second front => rw [lastPtr, lastPtr, List.getLast?_cons_cons, List.getLast?_cons]; rfl

theorem BackLinked.congr {start : Nat} (linked : BackLinked prevblk start pieces)
    (same : ∀ piece ∈ pieces, newPrevblk piece.ptr = prevblk piece.ptr) :
    BackLinked newPrevblk start pieces := by
  induction pieces generalizing start with
  | nil => trivial
  | cons first rest induction =>
      exact ⟨(same first List.mem_cons_self).trans linked.1,
        induction linked.2 fun piece member => same piece (List.mem_cons_of_mem _ member)⟩

theorem BackLinked.of_extent {newPieces : List Piece} {start : Nat}
    (linked : BackLinked prevblk start pieces)
    (same : newPieces.map Piece.extent = pieces.map Piece.extent) :
    BackLinked prevblk start newPieces := by
  induction pieces generalizing newPieces start with
  | nil =>
      rw [List.map_nil, List.map_eq_nil_iff] at same
      rw [same]
      trivial
  | cons first rest induction =>
      cases newPieces with
      | nil => cases same
      | cons newFirst newRest =>
          rw [List.map_cons, List.map_cons, List.cons.injEq, Piece.extent, Piece.extent,
            Prod.mk.injEq] at same
          obtain ⟨⟨samePtr, _⟩, sameRest⟩ := same
          refine ⟨samePtr ▸ linked.1, ?_⟩
          rw [samePtr]
          exact induction linked.2 sameRest

namespace Inline

theorem congr {new : Tlsf} {newPieces : List Piece} (inline : Inline baseptr space tlsf pieces)
    (same : SameSpace tlsf new)
    (addr : ∀ piece ∈ pieces, new.field piece.ptr .addr = tlsf.field piece.ptr .addr)
    (extents : newPieces.map Piece.extent = pieces.map Piece.extent) :
    Inline baseptr space new newPieces := by
  have back : BackLinked (new.field · .addr) 0 pieces := by
    apply BackLinked.congr inline.back
    exact addr
  exact ⟨same.blkHdrLen.trans inline.header, inline.tiles.of_extent extents,
    back.of_extent extents, same.baseptr.trans inline.base, same.size.trans inline.whole,
    inline.nonzero, inline.fits⟩

theorem covered_eq (inline : Inline baseptr space tlsf pieces) :
    covered blkHdrLen pieces = space := by
  have stop := inline.tiles.stop_eq
  omega

/-- A block and what follows it. -/
theorem ptr_eq (inline : Inline baseptr space tlsf (before ++ piece :: after)) :
    piece.ptr = baseptr + covered blkHdrLen before ∧
      piece.ptr + (blkHdrLen + piece.len) + covered blkHdrLen after = baseptr + space := by
  have isPtr : piece.ptr = baseptr + covered blkHdrLen before := inline.tiles.address_eq
  have stop := inline.tiles.stop_eq
  rw [covered_append, covered_cons] at stop
  exact ⟨isPtr, by omega⟩

theorem prev (inline : Inline baseptr space tlsf (before ++ piece :: after)) :
    tlsf.getPrevPhysblk piece.ptr = (before.getLast?.map Piece.ptr).getD 0 := by
  have nonzero : tlsf.blkHdrLen ≠ 0 := inline.header ▸ by decide
  rw [Tlsf.getPrevPhysblk, if_pos nonzero]
  exact (backLinked_append.mp inline.back).2.1

/-- `get_next_physblk` for any header with the length of the block. -/
theorem next_of_length (inline : Inline baseptr space tlsf (before ++ piece :: after))
    {state : Tlsf} (sameSpace : SameSpace tlsf state) (length : state.blockLength piece.ptr = piece.len) :
    state.getNextPhysblk piece.ptr = (after.head?.map Piece.ptr).getD 0 := by
  obtain ⟨isPtr, stop⟩ := inline.ptr_eq
  have fits := inline.fits
  have nonzero : state.blkHdrLen ≠ 0 := by
    rw [sameSpace.blkHdrLen, inline.header]
    decide
  rw [Tlsf.getNextPhysblk, if_pos nonzero, length, sameSpace.baseptr, sameSpace.size, inline.base,
    inline.whole, addWord_of_lt fits, addWord_of_lt (show piece.ptr + blkHdrLen < 2 ^ 64 by omega),
    addWord_of_lt (by omega)]
  cases after with
  | nil =>
      simp only [covered, List.map_nil, List.sum_nil] at stop
      exact if_neg (by omega)
  | cons second rest =>
      rw [covered_cons] at stop
      have positive : 0 < blkHdrLen := by decide
      have reordered : before ++ piece :: second :: rest = (before ++ [piece]) ++ second :: rest := by
        simp
      have secondPtr := (reordered ▸ inline : Inline baseptr space tlsf _).ptr_eq.1
      rw [covered_append, covered_cons] at secondPtr
      simp only [covered, List.map_nil, List.sum_nil] at secondPtr
      rw [if_pos (by omega)]
      simp only [List.head?_cons, Option.map_some, Option.getD_some]
      unfold covered at isPtr
      omega

theorem next (inline : Inline baseptr space tlsf (before ++ piece :: after))
    (rep : Rep tlsf (before ++ piece :: after) lists) :
    tlsf.getNextPhysblk piece.ptr = (after.head?.map Piece.ptr).getD 0 :=
  inline.next_of_length (.refl tlsf) (rep.blockLength (by simp))

theorem sameSpace_blockHdrFree {blk : Nat} (internal : tlsf.blkHdrLen ≠ 0) :
    SameSpace tlsf (tlsf.blockHdrFree blk) := by
  rw [Tlsf.blockHdrFree, if_pos internal]
  dsimp only
  split <;> exact ⟨rfl, rfl, rfl, rfl⟩

theorem sameLists_blockHdrFree {blk : Nat} (internal : tlsf.blkHdrLen ≠ 0) :
    SameLists tlsf (tlsf.blockHdrFree blk) := by
  rw [Tlsf.blockHdrFree, if_pos internal]
  dsimp only
  split <;> exact ⟨rfl, rfl, rfl, rfl⟩

/-- The part of the chain behind a block is told of a new header before it. -/
theorem back_replace {start first : Nat} {rest : List Piece}
    (linked : BackLinked prevblk start rest)
    (head : ∀ piece ∈ rest.head?, newPrevblk piece.ptr = first)
    (others : ∀ piece ∈ rest.tail, newPrevblk piece.ptr = prevblk piece.ptr) :
    BackLinked newPrevblk first rest := by
  cases rest with
  | nil => trivial
  | cons second rest => exact ⟨head second rfl, BackLinked.congr linked.2 others⟩

/-- `block_hdr_free` tells the next block of the previous one. -/
theorem blockHdrFree_eq (inline : Inline baseptr space tlsf (before ++ left :: right :: after))
    (rep : Rep tlsf (before ++ left :: right :: after) lists) {len : Nat} (fits : len < 2 ^ 64) :
    (tlsf.setField left.ptr .len len).blockHdrFree right.ptr =
      match after with
      | [] => tlsf.setField left.ptr .len len
      | second :: _ => (tlsf.setField left.ptr .len len).setField second.ptr .addr left.ptr := by
  have front := rep.perm (perm_second before after left right)
  have rightNe : right.ptr ≠ left.ptr := front.ptr_ne List.mem_cons_self
  have separate := front.separate (List.mem_cons_of_mem _ List.mem_cons_self) List.mem_cons_self
  have fields : ∀ name, (tlsf.setField left.ptr .len len).field right.ptr name =
      tlsf.field right.ptr name := by
    intro name
    rw [Tlsf.field_setField separate fits, if_neg fun both => rightNe both.1]
  have length : (tlsf.setField left.ptr .len len).blockLength right.ptr = right.len := by
    rw [Tlsf.blockLength, fields, ← Tlsf.blockLength,
      rep.blockLength (List.mem_append_right _ (by simp))]
  have reordered : before ++ left :: right :: after = (before ++ [left]) ++ right :: after := by
    simp
  have rightInline : Inline baseptr space tlsf ((before ++ [left]) ++ right :: after) :=
    reordered ▸ inline
  have sameSpace : SameSpace tlsf (tlsf.setField left.ptr .len len) := ⟨rfl, rfl, rfl, rfl⟩
  have isNext := rightInline.next_of_length sameSpace length
  have isPrev : tlsf.field right.ptr .addr = left.ptr :=
    (backLinked_append.mp inline.back).2.2.1
  have nonzero : (tlsf.setField left.ptr .len len).blkHdrLen ≠ 0 := by
    have header : (tlsf.setField left.ptr .len len).blkHdrLen = blkHdrLen := inline.header
    rw [header]
    decide
  rw [Tlsf.blockHdrFree, if_pos nonzero, isNext, fields, isPrev]
  cases after with
  | nil => exact if_neg (not_not.mpr rfl)
  | cons second rest =>
      have secondNonzero := (front.pointer second (by simp)).1
      exact if_pos secondNonzero

/-- What `block_hdr_free` leaves of the headers. -/
theorem field_blockHdrFree (inline : Inline baseptr space tlsf (before ++ left :: right :: after))
    (rep : Rep tlsf (before ++ left :: right :: after) lists) {len : Nat} (fits : len < 2 ^ 64)
    {other : Piece} (member : other ∈ left :: right :: (before ++ after)) (name : Field) :
    ((tlsf.setField left.ptr .len len).blockHdrFree right.ptr).field other.ptr name =
      if (∃ second ∈ after.head?, other.ptr = second.ptr) ∧ name = .addr then left.ptr
      else if other.ptr = left.ptr ∧ name = .len then len else tlsf.field other.ptr name := by
  have front := rep.perm (perm_second before after left right)
  have leftPointer := front.pointer left List.mem_cons_self
  rw [inline.blockHdrFree_eq rep fits]
  cases after with
  | nil =>
      simp only
      rw [Tlsf.field_setField (front.separate member List.mem_cons_self) fits]
      simp
  | cons second rest =>
      simp only
      rw [Tlsf.field_setField (front.separate member (by simp)) leftPointer.2,
        Tlsf.field_setField (front.separate member List.mem_cons_self) fits]
      simp

theorem merge (inline : Inline baseptr space tlsf (before ++ left :: right :: after))
    (rep : Rep tlsf (before ++ left :: right :: after) lists) {len : Nat}
    (isLen : len = (left.joined blkHdrLen right).len) :
    let next := (tlsf.setField left.ptr .len len).blockHdrFree right.ptr
    Inline baseptr space next (before ++ left.joined blkHdrLen right :: after) ∧
      Relaid tlsf next [left.joined blkHdrLen right] (before ++ after) ∧
      ∀ place, Untouched (before ++ left :: right :: after) place →
        next.memory place = tlsf.memory place := by
  intro next
  have front := rep.perm (perm_second before after left right)
  have spaceFits := inline.fits
  have fits : len < 2 ^ 64 := by
    have stop := inline.ptr_eq.2
    rw [covered_cons] at stop
    rw [isLen, Piece.joined]
    simp only
    omega
  have fields := fun {other} member name =>
    @field_blockHdrFree _ _ _ _ _ _ _ _ inline rep len fits other member name
  have notHead : ∀ other ∈ before, ¬ ∃ second ∈ after.head?, other.ptr = second.ptr := by
    rintro other inBefore ⟨second, isFirst, same⟩
    have nodup := rep.nodup_ptr
    rw [List.map_append, List.nodup_append] at nodup
    exact nodup.2.2 _ (List.mem_map_of_mem inBefore) _ (List.mem_map_of_mem
      (List.mem_cons_of_mem _ (List.mem_cons_of_mem _ (List.mem_of_head? isFirst)))) same
  have leftNotHead : ¬ ∃ second ∈ after.head?, left.ptr = second.ptr := by
    rintro ⟨second, isFirst, same⟩
    exact front.ptr_ne (List.mem_cons_of_mem _ (List.mem_append_right _
      (List.mem_of_head? isFirst))) same.symm
  have tailNotHead : ∀ other ∈ after.tail, ¬ ∃ second ∈ after.head?, other.ptr = second.ptr := by
    rintro other inTail ⟨second, isFirst, same⟩
    cases after with
    | nil => cases inTail
    | cons first rest =>
        cases isFirst
        have nodup := rep.nodup_ptr
        simp only [List.map_append, List.map_cons, List.nodup_append, List.nodup_cons] at nodup
        exact nodup.2.1.2.2.1 (same ▸ List.mem_map_of_mem inTail)
  have internal : (tlsf.setField left.ptr .len len).blkHdrLen ≠ 0 := by
    have header : (tlsf.setField left.ptr .len len).blkHdrLen = blkHdrLen := inline.header
    rw [header]
    decide
  have sameSpace : SameSpace tlsf next := by
    have first : SameSpace tlsf (tlsf.setField left.ptr .len len) := ⟨rfl, rfl, rfl, rfl⟩
    exact first.trans (sameSpace_blockHdrFree internal)
  have sameLists := @sameLists_blockHdrFree (tlsf.setField left.ptr .len len) right.ptr internal
  obtain ⟨beforeBack, leftBack, rightBack, afterBack⟩ := backLinked_append.mp inline.back
  refine ⟨⟨?_, inline.tiles.join, ?_, ?_, ?_, inline.nonzero, inline.fits⟩, ⟨?_, ?_, ?_⟩, ?_⟩
  · exact sameSpace.blkHdrLen.trans inline.header
  · apply backLinked_append.mpr
    refine ⟨?_, ?_, ?_⟩
    · apply BackLinked.congr beforeBack
      intro other inBefore
      rw [fields (by simp [inBefore]), if_neg fun both => notHead other inBefore both.1]
      simp
    · have samePtr : (left.joined blkHdrLen right).ptr = left.ptr := rfl
      simp only
      rw [samePtr, fields List.mem_cons_self, if_neg fun both => leftNotHead both.1]
      simpa using leftBack
    · apply back_replace afterBack
      · intro second isFirst
        rw [fields (by simp [List.mem_of_head? isFirst]), if_pos ⟨⟨second, isFirst, rfl⟩, rfl⟩]
        rfl
      · intro other inTail
        rw [fields (by simp [List.mem_of_mem_tail inTail]),
          if_neg fun both => tailNotHead other inTail both.1]
        simp
  · exact sameSpace.baseptr.trans inline.base
  · exact sameSpace.size.trans inline.whole
  · exact ⟨sameLists.map, sameLists.l1Free, sameLists.l2Free, sameLists.free⟩
  · intro other member name notAddr
    rw [fields (by simp [List.mem_append.mp member]), if_neg fun both => notAddr both.2, if_neg]
    exact fun both => front.ptr_ne (List.mem_cons_of_mem _ member) both.1
  · intro other member
    have samePtr : (left.joined blkHdrLen right).ptr = left.ptr := rfl
    rw [List.mem_singleton.mp member, samePtr, fields List.mem_cons_self,
      if_neg fun both => leftNotHead both.1, if_pos ⟨rfl, rfl⟩, isLen]
  · intro place untouched
    have leftOutside := @Untouched.header _ left place untouched (by simp)
    have isNext : next = _ := inline.blockHdrFree_eq rep fits
    cases after with
    | nil =>
        rw [isNext]
        exact Tlsf.setField_memory_header (by decide) leftOutside
    | cons second rest =>
        have secondOutside := @Untouched.header _ second place untouched (by simp)
        rw [isNext, Tlsf.setField_memory_header (by decide) secondOutside,
          Tlsf.setField_memory_header (by decide) leftOutside]

/-- The blocks before a block end below it. -/
theorem below (inline : Inline baseptr space tlsf (before ++ piece :: after)) {other : Piece}
    (member : other ∈ before) : other.ptr + (blkHdrLen + other.len) ≤ piece.ptr := by
  obtain ⟨front, rest, isSplit⟩ := List.append_of_mem member
  subst isSplit
  have isPtr := inline.ptr_eq.1
  rw [List.append_assoc, List.cons_append] at inline
  have otherPtr := inline.ptr_eq.1
  rw [covered_append, covered_cons] at isPtr
  omega

/-- The blocks after a block start above it. -/
theorem above (inline : Inline baseptr space tlsf (before ++ piece :: after)) {other : Piece}
    (member : other ∈ after) : piece.ptr + (blkHdrLen + piece.len) ≤ other.ptr := by
  obtain ⟨front, rest, isSplit⟩ := List.append_of_mem member
  subst isSplit
  have reordered : before ++ piece :: (front ++ other :: rest) =
      (before ++ piece :: front) ++ other :: rest := by
    simp
  rw [reordered] at inline
  exact inline.below (by simp)

end Inline

/-- Splitting does not go wrong: the length that the new header happens to have leads to
the next block, or the block is the last one and what is written for the next one stays
within the rest. -/
def SplitsInline (tlsf : Tlsf) (piece : Piece) (size _answer : Nat) : Prop :=
  let rem := piece.ptr + blkHdrLen + size
  tlsf.getNextPhysblk rem = tlsf.getNextPhysblk piece.ptr ∨
    tlsf.getNextPhysblk piece.ptr = 0 ∧ rem + blkHdrLen ≤ tlsf.getNextPhysblk rem ∧
      tlsf.getNextPhysblk rem + blkHdrLen ≤ piece.ptr + (blkHdrLen + piece.len)

/-- The headers after a split. -/
def cut (tlsf : Tlsf) (blk size rem nblk remsize : Nat) : Tlsf :=
  let tlsf := (tlsf.setField blk .len size).setField rem .addr blk
  let tlsf := if nblk ≠ 0 then tlsf.setField nblk .addr rem else tlsf
  tlsf.setField rem .len remsize

theorem getNextPhysblk_congr {old new : Tlsf} (same : SameSpace old new) {blk : Nat}
    (length : new.blockLength blk = old.blockLength blk)
    (internal : old.blkHdrLen ≠ 0) : new.getNextPhysblk blk = old.getNextPhysblk blk := by
  rw [Tlsf.getNextPhysblk, Tlsf.getNextPhysblk, same.blkHdrLen, if_pos internal, if_pos internal,
    same.baseptr, same.size, length]

theorem sameSpace_cut {blk size rem nblk remsize : Nat} :
    SameSpace tlsf (cut tlsf blk size rem nblk remsize) := by
  unfold cut
  dsimp only
  split <;> exact ⟨rfl, rfl, rfl, rfl⟩

theorem sameLists_cut {blk size rem nblk remsize : Nat} :
    SameLists tlsf (cut tlsf blk size rem nblk remsize) := by
  unfold cut
  dsimp only
  split <;> exact ⟨rfl, rfl, rfl, rfl⟩

/-- The headers other than the new one. -/
theorem field_cut {blk size rem nblk remsize other : Nat} (name : Field)
    (separateBlk : Separate other blk) (apartRem : Apart other sizeofBlk rem sizeofBlk)
    (separateNext : nblk ≠ 0 → Separate other nblk)
    (sizeLt : size < 2 ^ 64) (remLt : rem < 2 ^ 64) (blkLt : blk < 2 ^ 64)
    (remsizeLt : remsize < 2 ^ 64) :
    (cut tlsf blk size rem nblk remsize).field other name =
      if nblk ≠ 0 ∧ other = nblk ∧ name = .addr then rem
      else if other = blk ∧ name = .len then size
      else tlsf.field other name := by
  have notRem : other ≠ rem := by
    unfold Apart sizeofBlk at apartRem
    omega
  unfold cut
  dsimp only
  rw [Tlsf.field_setField (.inr apartRem) remsizeLt, if_neg fun both => notRem both.1]
  by_cases isNull : nblk ≠ 0
  · rw [if_pos isNull, Tlsf.field_setField (separateNext isNull) remLt,
      Tlsf.field_setField (.inr apartRem) blkLt, Tlsf.field_setField separateBlk sizeLt]
    simp [isNull, notRem]
  · rw [if_neg isNull, Tlsf.field_setField (.inr apartRem) blkLt,
      Tlsf.field_setField separateBlk sizeLt]
    simp [isNull, notRem]

/-- The new header. -/
theorem field_cut_remainder {blk size rem nblk remsize : Nat}
    (beyond : nblk ≠ 0 → rem + blkHdrLen ≤ nblk) (blkLt : blk < 2 ^ 64)
    (remsizeLt : remsize < 2 ^ 64) :
    (cut tlsf blk size rem nblk remsize).field rem .len = remsize ∧
      (cut tlsf blk size rem nblk remsize).field rem .addr = blk := by
  unfold cut
  dsimp only
  rw [Tlsf.field_setField (.refl _) remsizeLt, Tlsf.field_setField (.refl _) remsizeLt,
    if_pos ⟨rfl, rfl⟩, if_neg (by simp)]
  refine ⟨rfl, ?_⟩
  have header : blkHdrLen = 16 := rfl
  by_cases isNull : nblk ≠ 0
  · have apart := beyond isNull
    rw [if_pos isNull, Tlsf.field_setField_apart (by simp only [Field.offset]; omega),
      Tlsf.field_setField (.refl _) blkLt, if_pos ⟨rfl, rfl⟩]
  · rw [if_neg isNull, Tlsf.field_setField (.refl _) blkLt, if_pos ⟨rfl, rfl⟩]

theorem cut_memory {blk size rem nblk remsize place : Nat}
    (outsideBlk : place < blk ∨ blk + blkHdrLen ≤ place)
    (outsideRem : place < rem ∨ rem + blkHdrLen ≤ place)
    (outsideNext : nblk ≠ 0 → place < nblk ∨ nblk + blkHdrLen ≤ place) :
    (cut tlsf blk size rem nblk remsize).memory place = tlsf.memory place := by
  unfold cut
  dsimp only
  rw [Tlsf.setField_memory_header (by decide) outsideRem]
  by_cases isNull : nblk ≠ 0
  · rw [if_pos isNull, Tlsf.setField_memory_header (by decide) (outsideNext isNull),
      Tlsf.setField_memory_header (by decide) outsideRem,
      Tlsf.setField_memory_header (by decide) outsideBlk]
  · rw [if_neg isNull, Tlsf.setField_memory_header (by decide) outsideRem,
      Tlsf.setField_memory_header (by decide) outsideBlk]

theorem blockHdrAlloc_internal {parent len answer rem nblk : Nat}
    (internal : tlsf.blkHdrLen ≠ 0)
    (isRem : addWord (addWord parent blkHdrLen) (tlsf.blockLength parent) = rem)
    (isNext : (tlsf.setField rem .addr parent).getNextPhysblk rem = nblk) :
    tlsf.blockHdrAlloc parent len answer =
      (rem, (if nblk ≠ 0 then (tlsf.setField rem .addr parent).setField nblk .addr rem
        else tlsf.setField rem .addr parent).setField rem .len len) := by
  unfold Tlsf.blockHdrAlloc
  rw [if_pos internal]
  simp only [isRem, isNext]

theorem splitBlock_internal {blk size answer rem nblk remsize : Nat}
    (remNonzero : rem ≠ 0)
    (isRemsize : subWord (subWord (tlsf.blockLength blk) tlsf.blkHdrLen) size = remsize)
    (alloc : (tlsf.setField blk .len size).blockHdrAlloc blk remsize answer =
      (rem, cut tlsf blk size rem nblk remsize)) :
    tlsf.splitBlock blk size answer = (rem, cut tlsf blk size rem nblk remsize) := by
  unfold Tlsf.splitBlock
  rw [isRemsize]
  simp only [alloc]
  rw [if_pos remNonzero]

theorem remainder_length {blk size rem : Nat} (beyond : blk + blkHdrLen ≤ rem) :
    ((tlsf.setField blk .len size).setField rem .addr blk).blockLength rem =
      tlsf.blockLength rem := by
  have header : blkHdrLen = 16 := rfl
  unfold Tlsf.blockLength
  rw [Tlsf.field_setField_apart (by simp [Field.offset]),
    Tlsf.field_setField_apart (by simp only [Field.offset]; omega)]

namespace Inline

theorem splitBlock_eq (inline : Inline baseptr space tlsf (before ++ piece :: after))
    (rep : Rep tlsf (before ++ piece :: after) lists) {size answer rem : Nat}
    (even : size % 2 = 0) (leaves : size + (blkHdrLen + mbs) ≤ piece.len)
    (isRem : piece.ptr + blkHdrLen + size = rem) :
    tlsf.splitBlock piece.ptr size answer =
      (rem, cut tlsf piece.ptr size rem (tlsf.getNextPhysblk rem)
        (piece.len - size - blkHdrLen)) := by
  have isMember : piece ∈ before ++ piece :: after := by simp
  have pieceLt := rep.len_lt isMember
  have stop := inline.ptr_eq.2
  have fits := inline.fits
  have header : blkHdrLen = 16 := rfl
  have internal : tlsf.blkHdrLen ≠ 0 := by
    rw [inline.header]
    decide
  have isRemsize : subWord (subWord (tlsf.blockLength piece.ptr) tlsf.blkHdrLen) size =
      piece.len - size - blkHdrLen := by
    rw [rep.blockLength isMember, inline.header, subWord_of_le (by omega) pieceLt,
      subWord_of_le (by omega) (by omega)]
    omega
  have parentLength : (tlsf.setField piece.ptr .len size).blockLength piece.ptr = size := by
    unfold Tlsf.blockLength
    rw [Tlsf.field_setField (.refl _) (by omega), if_pos ⟨rfl, rfl⟩]
    omega
  have isRemainder : addWord (addWord piece.ptr blkHdrLen)
      ((tlsf.setField piece.ptr .len size).blockLength piece.ptr) = rem := by
    rw [parentLength, addWord_of_lt (show piece.ptr + blkHdrLen < 2 ^ 64 by omega),
      addWord_of_lt (by omega), isRem]
  have sameSpace : SameSpace tlsf ((tlsf.setField piece.ptr .len size).setField rem .addr
      piece.ptr) := ⟨rfl, rfl, rfl, rfl⟩
  have isNext := getNextPhysblk_congr sameSpace
    (@remainder_length tlsf _ size _ (show piece.ptr + blkHdrLen ≤ rem by omega)) internal
  have alloc : (tlsf.setField piece.ptr .len size).blockHdrAlloc piece.ptr
      (piece.len - size - blkHdrLen) answer = (rem, cut tlsf piece.ptr size rem
        (tlsf.getNextPhysblk rem) (piece.len - size - blkHdrLen)) :=
    blockHdrAlloc_internal internal isRemainder isNext
  exact splitBlock_internal (by omega) isRemsize alloc

/-- Where the length that the new header happens to have leads. -/
theorem splits_cases (inline : Inline baseptr space tlsf (before ++ piece :: after))
    (rep : Rep tlsf (before ++ piece :: after) lists) {size answer rem : Nat}
    (splits : SplitsInline tlsf piece size answer)
    (isRem : piece.ptr + blkHdrLen + size = rem) :
    after = [] ∧ tlsf.getNextPhysblk rem = 0 ∨
      (∃ second rest, after = second :: rest ∧ tlsf.getNextPhysblk rem = second.ptr) ∨
      after = [] ∧ rem + blkHdrLen ≤ tlsf.getNextPhysblk rem ∧
        tlsf.getNextPhysblk rem + blkHdrLen ≤ piece.ptr + (blkHdrLen + piece.len) := by
  unfold SplitsInline at splits
  dsimp only at splits
  rw [isRem, inline.next rep] at splits
  cases after with
  | nil =>
      rcases splits with isNext | ⟨_, within⟩
      · exact .inl ⟨rfl, isNext⟩
      · exact .inr (.inr ⟨rfl, within⟩)
  | cons second rest =>
      rcases splits with isNext | ⟨isNull, _⟩
      · exact .inr (.inl ⟨second, rest, rfl, isNext⟩)
      · exact absurd isNull (rep.pointer second (by simp)).1

theorem split (inline : Inline baseptr space tlsf (before ++ piece :: after))
    (rep : Rep tlsf (before ++ piece :: after) lists) {size answer : Nat} (even : size % 2 = 0) (large : mbs ≤ size)
    (leaves : size + (blkHdrLen + mbs) ≤ piece.len) (splits : SplitsInline tlsf piece size answer) :
    ∃ rem next, tlsf.splitBlock piece.ptr size answer = (rem, next) ∧
      let news : List Piece :=
        [⟨piece.ptr, size, false⟩, ⟨rem, piece.len - size - blkHdrLen, false⟩]
      rem ≠ 0 ∧ rem < 2 ^ 64 ∧ Inline baseptr space next (before ++ news ++ after) ∧
        Relaid tlsf next news (before ++ after) ∧
        ((news ++ (before ++ after)).map Piece.ptr).Pairwise
          (fun left right => Library.Apart left sizeofBlk right sizeofBlk) ∧
        ∀ place, Untouched (before ++ piece :: after) place →
          (place < rem ∨ rem + (sizeofBlk + (piece.len - size - blkHdrLen)) ≤ place) →
          next.memory place = tlsf.memory place := by
  obtain ⟨rem, isRem⟩ : ∃ rem, piece.ptr + blkHdrLen + size = rem := ⟨_, rfl⟩
  obtain ⟨nblk, isNext⟩ : ∃ nblk, tlsf.getNextPhysblk rem = nblk := ⟨_, rfl⟩
  have leads := inline.splits_cases rep splits isRem
  rw [isNext] at leads
  have result := @splitBlock_eq _ _ _ _ _ _ _ inline rep size answer rem even leaves isRem
  rw [isNext] at result
  have front := rep.perm List.perm_middle
  have pieceLt := front.pointer piece List.mem_cons_self
  obtain ⟨isPtr, stop⟩ := inline.ptr_eq
  have fits := inline.fits
  have header : blkHdrLen = 16 := rfl
  have minimum : mbs = 32 := rfl
  have blk : sizeofBlk = 32 := rfl
  have remLt : rem < 2 ^ 64 := by omega
  have secondBeyond : ∀ other ∈ after, piece.ptr + (blkHdrLen + piece.len) ≤ other.ptr :=
    fun other member => inline.above member
  have beyond : nblk ≠ 0 → rem + blkHdrLen ≤ nblk := by
    intro notNull
    rcases leads with ⟨_, isNull⟩ | ⟨second, rest, isCons, isSecond⟩ | ⟨_, low, _⟩
    · exact absurd isNull notNull
    · have above := secondBeyond second (isCons ▸ List.mem_cons_self)
      omega
    · exact low
  have apartRem : ∀ other ∈ piece :: (before ++ after), Apart other.ptr sizeofBlk rem sizeofBlk := by
    intro other member
    unfold Apart
    rcases List.mem_cons.mp member with isPiece | isOther
    · rw [isPiece]
      omega
    · rcases List.mem_append.mp isOther with inBefore | inAfter
      · have below := inline.below inBefore
        have length := (rep.length other (List.mem_append_left _ inBefore)).2
        omega
      · have above := secondBeyond other inAfter
        omega
  have separateNext : ∀ other ∈ piece :: (before ++ after), nblk ≠ 0 →
      Separate other.ptr nblk := by
    intro other member notNull
    rcases leads with ⟨_, isNull⟩ | ⟨second, rest, isCons, isSecond⟩ | ⟨isNil, low, high⟩
    · exact absurd isNull notNull
    · rw [isSecond]
      exact front.separate member (by simp [isCons])
    · right
      unfold Apart
      rcases List.mem_cons.mp member with isPiece | isOther
      · rw [isPiece]
        omega
      · have below := inline.below (by simpa [isNil] using isOther)
        have length := (front.length other member).2
        omega
  have notNext : ∀ other, (other ∈ piece :: before ∨ other ∈ after.tail) → nblk ≠ 0 →
      other.ptr ≠ nblk := by
    intro other member notNull
    have ahead := beyond notNull
    rcases member with inFront | inTail
    · rcases List.mem_cons.mp inFront with isPiece | inBefore
      · rw [isPiece]
        omega
      · have below := inline.below inBefore
        omega
    · rcases leads with ⟨isNil, _⟩ | ⟨second, rest, isCons, isSecond⟩ | ⟨isNil, _⟩
      · rw [isNil] at inTail
        cases inTail
      · have nodup := front.nodup_ptr
        rw [isSecond]
        rw [isCons] at inTail nodup
        intro same
        simp only [List.map_cons, List.map_append, List.nodup_cons, List.nodup_append] at nodup
        exact nodup.2.2.1.1 (same ▸ List.mem_map_of_mem inTail)
      · rw [isNil] at inTail
        cases inTail
  have remsizeLt : piece.len - size - blkHdrLen < 2 ^ 64 := by omega
  have fields : ∀ other ∈ piece :: (before ++ after), ∀ name,
      (cut tlsf piece.ptr size rem nblk (piece.len - size - blkHdrLen)).field other.ptr name =
        if nblk ≠ 0 ∧ other.ptr = nblk ∧ name = .addr then rem
        else if other.ptr = piece.ptr ∧ name = .len then size
        else tlsf.field other.ptr name := by
    intro other member name
    exact field_cut name (front.separate member List.mem_cons_self) (apartRem other member)
      (separateNext other member) (by omega) remLt pieceLt.2 remsizeLt
  obtain ⟨remLength, remPrev⟩ := @field_cut_remainder tlsf piece.ptr size rem nblk
    (piece.len - size - blkHdrLen) beyond pieceLt.2 remsizeLt
  refine ⟨rem, _, result, by omega, remLt, ⟨?_, ?_, ?_, ?_, ?_, inline.nonzero, inline.fits⟩,
    ⟨sameLists_cut, ?_, ?_⟩, ?_, ?_⟩
  · exact sameSpace_cut.blkHdrLen.trans inline.header
  · rw [List.append_assoc, tiles_append]
    obtain ⟨frontTiles, pieceAddr, restTiles⟩ := tiles_append.mp inline.tiles
    have sameStart : baseptr + covered blkHdrLen before + (blkHdrLen + size) +
        (blkHdrLen + (piece.len - size - blkHdrLen)) =
          baseptr + covered blkHdrLen before + (blkHdrLen + piece.len) := by
      omega
    refine ⟨frontTiles, pieceAddr, ?_, ?_⟩
    · simp only [id_eq]
      omega
    · simp only
      rw [sameStart]
      exact restTiles
  · obtain ⟨beforeBack, pieceBack, afterBack⟩ := backLinked_append.mp inline.back
    rw [List.append_assoc]
    refine backLinked_append.mpr ⟨?_, ?_, remPrev, ?_⟩
    · apply BackLinked.congr beforeBack
      intro other member
      rw [fields other (by simp [member]),
        if_neg fun all => notNext other (.inl (List.mem_cons_of_mem _ member)) all.1 all.2.1]
      simp
    · simp only
      rw [fields piece List.mem_cons_self,
        if_neg fun all => notNext piece (.inl List.mem_cons_self) all.1 all.2.1]
      simpa using pieceBack
    · apply back_replace afterBack
      · intro second isFirst
        have inAfter := List.mem_of_mem_head? isFirst
        have isSecond : nblk = second.ptr := by
          rcases leads with ⟨isNil, _⟩ | ⟨other, rest, isCons, isOther⟩ | ⟨isNil, _⟩
          · simp [isNil] at inAfter
          · rw [isCons, List.head?_cons, Option.mem_some_iff] at isFirst
            rw [← isFirst, isOther]
          · simp [isNil] at inAfter
        have pointer := (front.pointer second (by simp [inAfter])).1
        rw [fields second (by simp [inAfter]), if_pos ⟨isSecond ▸ pointer, isSecond.symm, rfl⟩]
      · intro other inTail
        rw [fields other (by simp [List.mem_of_mem_tail inTail]),
          if_neg fun all => notNext other (.inr inTail) all.1 all.2.1]
        simp
  · exact sameSpace_cut.baseptr.trans inline.base
  · exact sameSpace_cut.size.trans inline.whole
  · intro other member name notAddr
    rw [fields other (List.mem_cons_of_mem _ member), if_neg fun all => notAddr all.2.2, if_neg]
    exact fun both => front.ptr_ne member both.1
  · intro other member
    simp only [List.mem_cons, List.not_mem_nil, or_false] at member
    rcases member with isFirst | isSecond
    · rw [isFirst]
      simp only
      rw [fields piece List.mem_cons_self, if_neg (by simp), if_pos ⟨rfl, rfl⟩]
    · rw [isSecond]
      exact remLength
  · have spaced := front.spaced
    rw [List.map_cons, List.pairwise_cons] at spaced
    simp only [List.cons_append, List.nil_append, List.map_cons, List.pairwise_cons, List.mem_cons]
    refine ⟨?_, ?_, spaced.2⟩
    · rintro ptr (isRemainder | isOther)
      · rw [isRemainder]
        exact apartRem piece List.mem_cons_self
      · exact spaced.1 ptr isOther
    · intro ptr isOther
      obtain ⟨other, member, isPtr⟩ := List.mem_map.mp isOther
      rw [← isPtr]
      exact (apartRem other (List.mem_cons_of_mem _ member)).symm
  · intro place untouched outside
    refine cut_memory (@Untouched.header _ piece place untouched (by simp)) (by omega) ?_
    intro notNull
    rcases leads with ⟨_, isNull⟩ | ⟨second, rest, isCons, isSecond⟩ | ⟨_, low, high⟩
    · exact absurd isNull notNull
    · rw [isSecond]
      exact @Untouched.header _ second place untouched (by simp [isCons])
    · omega

end Inline

/-- The instance of inlined headers. -/
theorem physical_inline : Physical blkHdrLen (Inline baseptr space) SplitsInline where
  gap_even := rfl
  gap_eq inline := inline.header
  small inline := by
    have fits := inline.fits
    rw [inline.covered_eq]
    omega
  congr inline := inline.congr
  prev inline _ := inline.prev
  next inline rep := inline.next rep
  merge inline rep _ _ := inline.merge rep rfl
  split := by
    intro tlsf before after piece size answer lists inline rep _ even large leaves splits
    obtain ⟨rem, next, result, rest⟩ := inline.split rep even large leaves splits
    exact ⟨rem, next, result, .inr rest⟩

end MallocSurvey.Tlsf1
