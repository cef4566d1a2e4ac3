import MallocSurvey.Tlsf1.Layout

/-! # Merging blocks

`tlsf_ext_free` merges the block with its free neighbours and inserts it. `Physical` is
what internal and external headers have in common. -/

namespace MallocSurvey.Tlsf1

open Library

/-- The chain of the headers in the order of the addresses. `Splits` are the answers of
`malloc` and the memory contents with which a block can be split. -/
structure Physical (gap : Nat) (layout : Tlsf → List Piece → Prop)
    (Splits : Tlsf → Piece → Nat → Nat → Prop) : Prop where
  gap_even : gap % 2 = 0
  gap_eq {tlsf : Tlsf} {pieces : List Piece} : layout tlsf pieces → tlsf.blkHdrLen = gap
  small {tlsf : Tlsf} {pieces : List Piece} :
    layout tlsf pieces → covered gap pieces < 2 ^ 64
  congr {old new : Tlsf} {pieces newPieces : List Piece} : layout old pieces →
    SameSpace old new →
    (∀ piece ∈ pieces, new.field piece.ptr .addr = old.field piece.ptr .addr) →
    newPieces.map Piece.extent = pieces.map Piece.extent → layout new newPieces
  prev {tlsf : Tlsf} {before after : List Piece} {piece : Piece} {lists} :
    layout tlsf (before ++ piece :: after) → Rep tlsf (before ++ piece :: after) lists →
    tlsf.getPrevPhysblk piece.ptr = (before.getLast?.map Piece.ptr).getD 0
  next {tlsf : Tlsf} {before after : List Piece} {piece : Piece} {lists} :
    layout tlsf (before ++ piece :: after) → Rep tlsf (before ++ piece :: after) lists →
    tlsf.getNextPhysblk piece.ptr = (after.head?.map Piece.ptr).getD 0
  merge {tlsf : Tlsf} {before after : List Piece} {left right : Piece} {lists} :
    layout tlsf (before ++ left :: right :: after) →
    Rep tlsf (before ++ left :: right :: after) lists →
    left.free = false → right.free = false →
    let next :=
      (tlsf.setField left.ptr .len (left.joined gap right).len).blockHdrFree right.ptr
    layout next (before ++ left.joined gap right :: after) ∧
      Relaid tlsf next [left.joined gap right] (before ++ after) ∧
      ∀ place, Untouched (before ++ left :: right :: after) place →
        next.memory place = tlsf.memory place
  split {tlsf : Tlsf} {before after : List Piece} {piece : Piece} {size answer : Nat} {lists} :
    layout tlsf (before ++ piece :: after) → Rep tlsf (before ++ piece :: after) lists →
    piece.free = false → size % 2 = 0 → mbs ≤ size → size + (gap + mbs) ≤ piece.len →
    Splits tlsf piece size answer →
    ∃ rem next, tlsf.splitBlock piece.ptr size answer = (rem, next) ∧
      (rem = 0 ∧ layout next (before ++ piece :: after) ∧
          Relaid tlsf next [piece] (before ++ after) ∧
          (∀ place, Untouched (before ++ piece :: after) place →
            next.memory place = tlsf.memory place) ∨
        let news : List Piece :=
          [⟨piece.ptr, size, false⟩, ⟨rem, piece.len - size - gap, false⟩]
        rem ≠ 0 ∧ rem < 2 ^ 64 ∧ layout next (before ++ news ++ after) ∧
          Relaid tlsf next news (before ++ after) ∧
          ((news ++ (before ++ after)).map Piece.ptr).Pairwise
            (fun left right => Library.Apart left sizeofBlk right sizeofBlk) ∧
          ∀ place, Untouched (before ++ piece :: after) place →
            (place < rem ∨ rem + (sizeofBlk + (piece.len - size - gap)) ≤ place) →
            next.memory place = tlsf.memory place)

/-- A block is free at the address, which is null at the ends of the space. -/
def Tlsf.Merges (tlsf : Tlsf) (blk : Nat) : Prop := blk ≠ 0 ∧ tlsf.blockFree blk = true

instance (tlsf : Tlsf) (blk : Nat) : Decidable (tlsf.Merges blk) :=
  inferInstanceAs (Decidable (_ ∧ _))

/-- The merges of `tlsf_ext_free` do not remove the last one of several blocks. -/
def Tlsf.FreeKeepsBits (tlsf : Tlsf) (blk : Nat) : Prop :=
  let prevblk := tlsf.getPrevPhysblk blk
  let nextblk := tlsf.getNextPhysblk blk
  (tlsf.Merges prevblk → NotTail tlsf prevblk) ∧
    (tlsf.Merges nextblk → NotTail tlsf nextblk ∨
      tlsf.Merges prevblk ∧ tlsf.field nextblk .prev = prevblk ∧ tlsf.field prevblk .prev = 0)

section Merge

variable {gap : Nat} {layout : Tlsf → List Piece → Prop}
  {Splits : Tlsf → Piece → Nat → Nat → Prop} {tlsf : Tlsf}
  {before after others : List Piece} {piece left right : Piece}
  {lists : Nat × Nat → List Nat}

theorem perm_second (before after : List Piece) (left right : Piece) :
    (before ++ left :: right :: after).Perm (left :: right :: (before ++ after)) :=
  List.perm_middle.trans (List.perm_middle.cons left)

/-- The state after `merge_blocks`. -/
def merged (gap : Nat) (tlsf : Tlsf) (left right : Piece) : Tlsf :=
  ((delisted (delisted tlsf left) right).setField left.ptr .len
    (left.joined gap right).len).blockHdrFree right.ptr

theorem Rep.delist_both (rep : Rep tlsf (left :: right :: others) lists) :
    Rep (delisted (delisted tlsf left) right) (left.used :: right.used :: others)
      (delistedLists (delistedLists lists left) right) :=
  (rep.delist.perm (.swap ..)).delist.perm (.swap ..)

theorem sameOutside_delist_both (rep : Rep tlsf (left :: right :: others) lists) :
    SameOutside tlsf (delisted (delisted tlsf left) right) (left :: right :: others) := by
  have first := sameOutside_delisted rep
  have second := sameOutside_delisted (rep.delist.perm (.swap ..))
  refine ⟨first.space.trans second.space, ?_, ?_⟩
  · intro piece member
    have inSecond : ∃ other ∈ right :: left.used :: others, other.ptr = piece.ptr := by
      rcases List.mem_cons.mp member with isLeft | member
      · exact ⟨left.used, by simp, by rw [isLeft, Piece.used]⟩
      · rcases List.mem_cons.mp member with isRight | inOthers
        · exact ⟨right, by simp, by rw [isRight]⟩
        · exact ⟨piece, by simp [inOthers], rfl⟩
    obtain ⟨other, otherMem, samePtr⟩ := inSecond
    rw [← samePtr, second.addr other otherMem, samePtr, first.addr piece member]
  · intro place outside
    rw [second.memory, first.memory place outside]
    intro piece member isFree
    rcases List.mem_cons.mp member with isRight | member
    · exact outside piece (by simp [isRight]) isFree
    · rcases List.mem_cons.mp member with isLeft | inOthers
      · rw [isLeft, Piece.used] at isFree
        cases isFree
      · exact outside piece (by simp [inOthers]) isFree

theorem mergeBlocks_eq (rep : Rep tlsf (left :: right :: others) lists)
    (gapEq : tlsf.blkHdrLen = gap) (small : left.len + (gap + right.len) < 2 ^ 64) :
    tlsf.mergeBlocks left.ptr right.ptr = some (merged gap tlsf left right) := by
  have second := rep.delist.perm (.swap ..)
  have isLeft := rep.delist_both.word left.used List.mem_cons_self
  have leftLen : (delisted (delisted tlsf left) right).field left.ptr .len = left.len := isLeft
  have sameGap : (delisted (delisted tlsf left) right).blkHdrLen = gap :=
    (sameOutside_delist_both rep).space.blkHdrLen.trans gapEq
  rw [Tlsf.mergeBlocks, rep.blockLength (List.mem_cons_of_mem _ List.mem_cons_self)]
  simp only [removeIfFree_eq rep, removeIfFree_eq second, Option.bind_eq_bind, Option.bind_some]
  rw [leftLen, sameGap, addWord_of_lt (show gap + right.len < 2 ^ 64 by omega),
    addWord_of_lt small]
  rfl

/-- What a merge does to the layout, the lists and the memory. -/
theorem Physical.merge_spec (physical : Physical gap layout Splits)
    (isLayout : layout tlsf (before ++ left :: right :: after))
    (rep : Rep tlsf (before ++ left :: right :: after) lists) :
    tlsf.mergeBlocks left.ptr right.ptr = some (merged gap tlsf left right) ∧
      layout (merged gap tlsf left right) (before ++ left.joined gap right :: after) ∧
      Rep (merged gap tlsf left right) (before ++ left.joined gap right :: after)
        (delistedLists (delistedLists lists left) right) ∧
      (∀ place, Untouched (before ++ left :: right :: after) place →
        (merged gap tlsf left right).memory place = tlsf.memory place) ∧
      Relaid (delisted (delisted tlsf left) right) (merged gap tlsf left right)
        [left.joined gap right] (before ++ after) := by
  have perm := perm_second before after left right
  have front := rep.perm perm
  have bothRep := front.delist_both
  have outside := sameOutside_delist_both front
  have orderedRep : Rep (delisted (delisted tlsf left) right)
      (before ++ left.used :: right.used :: after)
      (delistedLists (delistedLists lists left) right) :=
    bothRep.perm (perm_second before after left.used right.used).symm
  have orderedLayout : layout (delisted (delisted tlsf left) right)
      (before ++ left.used :: right.used :: after) :=
    physical.congr isLayout outside.space (outside.perm perm.symm).addr
      (by simp [Piece.used, Piece.extent])
  obtain ⟨newLayout, relaid, memory⟩ :
      layout (merged gap tlsf left right) (before ++ left.joined gap right :: after) ∧
        Relaid (delisted (delisted tlsf left) right) (merged gap tlsf left right)
          [left.joined gap right] (before ++ after) ∧
        ∀ place, Untouched (before ++ left.used :: right.used :: after) place →
          (merged gap tlsf left right).memory place =
            (delisted (delisted tlsf left) right).memory place :=
    physical.merge orderedLayout orderedRep rfl rfl
  have newSmall := physical.small newLayout
  have bound := sum_len_le_covered gap (before ++ left.joined gap right :: after)
  have joinedSmall : left.len + (gap + right.len) < 2 ^ 64 := by
    rw [covered_append, covered_cons, Piece.joined] at newSmall
    simp only at newSmall
    omega
  refine ⟨mergeBlocks_eq front (physical.gap_eq isLayout) joinedSmall, newLayout, ?_, ?_, relaid⟩
  · apply Rep.perm _ List.perm_middle.symm
    have bothUsed : ∀ piece ∈ [left.used, right.used], piece.free = false := by
      simp [Piece.used]
    have bothRep' : Rep (delisted (delisted tlsf left) right)
        ([left.used, right.used] ++ (before ++ after))
        (delistedLists (delistedLists lists left) right) := bothRep
    apply bothRep'.relayout relaid bothUsed
    · simp [Piece.joined]
    · have spaced := front.spaced
      rw [List.map_cons, List.map_cons] at spaced
      exact spaced.sublist (.cons_cons _ (.cons _ (.refl _)))
    · intro piece member
      rw [List.mem_singleton.mp member]
      exact front.pointer left List.mem_cons_self
    · intro piece member
      rw [List.mem_singleton.mp member, Piece.joined]
      have leftLength := front.length left List.mem_cons_self
      have rightLength := front.length right (by simp)
      have even := physical.gap_even
      simp only
      omega
    · have reordered : (left.joined gap right :: (before ++ after)).Perm
          (before ++ left.joined gap right :: after) := List.perm_middle.symm
      rw [List.singleton_append, (reordered.map Piece.len).sum_nat]
      omega
  · intro place untouched
    have usedToo : Untouched (before ++ left.used :: right.used :: after) place := by
      apply untouched.mono
      intro piece member
      simp only [List.mem_append, List.mem_cons] at member ⊢
      rcases member with inBefore | isLeft | isRight | inAfter
      · exact ⟨piece, .inl inBefore, rfl, fun _ => rfl⟩
      · exact ⟨left, .inr (.inl rfl), by rw [isLeft, Piece.used], by simp [isLeft, Piece.used]⟩
      · exact ⟨right, .inr (.inr (.inl rfl)), by rw [isRight, Piece.used],
          by simp [isRight, Piece.used]⟩
      · exact ⟨piece, .inr (.inr (.inr inAfter)), rfl, fun _ => rfl⟩
    rw [memory place usedToo, outside.memory place]
    intro piece member isFree
    exact untouched.outside piece (perm.mem_iff.mpr member) isFree

/-- What an insertion does to the layout, the lists and the memory. -/
theorem Physical.insert_spec (physical : Physical gap layout Splits)
    (isLayout : layout tlsf (before ++ piece :: after))
    (rep : Rep tlsf (before ++ piece :: after) lists) (isUsed : piece.free = false) :
    ∃ next newLists, tlsf.insertBlock piece.ptr = some next ∧
      layout next (before ++ piece.freed :: after) ∧
      Rep next (before ++ piece.freed :: after) newLists ∧
      (∀ place, Untouched (before ++ piece.freed :: after) place →
        next.memory place = tlsf.memory place) ∧
      (BitsExact tlsf lists → BitsExact next newLists) := by
  have front := rep.perm List.perm_middle
  have mapped := mapped_classOf (front.length piece List.mem_cons_self).2
  have perm : (before ++ piece.freed :: after).Perm (piece.freed :: (before ++ after)) :=
    List.perm_middle
  have outside := (@sameOutside_inserted _ (classOf piece.len) _ _ _ front isUsed).perm perm.symm
  have addr : ∀ other ∈ before ++ piece :: after,
      (inserted tlsf piece (classOf piece.len)).field other.ptr .addr =
        tlsf.field other.ptr .addr := by
    intro other member
    rw [field_inserted front isUsed (List.perm_middle.mem_iff.mp member)]
    simp
  refine ⟨inserted tlsf piece (classOf piece.len), _, insertBlock_eq front isUsed mapped,
    physical.congr isLayout outside.space addr (by simp [Piece.freed, Piece.extent]),
    (front.insert isUsed mapped).perm perm.symm, ?_, bitsExact_inserted front mapped⟩
  intro place untouched
  exact outside.memory place untouched.outside

/-! ## tlsf_ext_free -/

theorem field_merged (physical : Physical gap layout Splits)
    (isLayout : layout tlsf (before ++ left :: piece :: after))
    (rep : Rep tlsf (before ++ left :: piece :: after) lists) (isFree : left.free = true)
    (isUsed : piece.free = false) (member : right ∈ before ++ after) {name : Field}
    (isLink : name ≠ .addr) :
    (merged gap tlsf left piece).field right.ptr name =
      if right.ptr = tlsf.field left.ptr .prev ∧ name = .next then tlsf.field left.ptr .next
      else if right.ptr = tlsf.field left.ptr .next ∧ name = .prev then
        tlsf.field left.ptr .prev
      else tlsf.field right.ptr name := by
  have front := rep.perm (perm_second before after left piece)
  have relaid := (physical.merge_spec isLayout rep).2.2.2.2
  rw [relaid.others right member name isLink, delisted_of_used isUsed,
    field_delisted front (List.mem_cons_of_mem _ member)]
  simp [isFree]

/-- The next block is still not the last one of several after the previous one left. -/
theorem notTail_merged (physical : Physical gap layout Splits)
    (isLayout : layout tlsf (before ++ left :: piece :: after))
    (rep : Rep tlsf (before ++ left :: piece :: after) lists) (leftFree : left.free = true)
    (isUsed : piece.free = false) (member : right ∈ before ++ after)
    (rightFree : right.free = true) (leftNotTail : NotTail tlsf left.ptr)
    (rightNotTail : NotTail tlsf right.ptr ∨
      tlsf.field right.ptr .prev = left.ptr ∧ tlsf.field left.ptr .prev = 0) :
    NotTail (merged gap tlsf left piece) right.ptr := by
  have front := rep.perm (perm_second before after left piece)
  have inRight : right ∈ left :: piece :: (before ++ after) := by simp [List.mem_append.mp member]
  have leftPointer := front.pointer left List.mem_cons_self
  have rightPointer := front.pointer right inRight
  have leftMapped := mapped_classOf (front.length left List.mem_cons_self).2
  have rightMapped := mapped_classOf (front.length right inRight).2
  have leftListed := front.self_listed leftFree leftMapped
  have rightListed := (front.listed (classOf right.len) right.ptr).mpr
    ⟨right, inRight, rfl, rightFree, rightMapped⟩
  unfold NotTail
  rw [field_merged physical isLayout rep leftFree isUsed member (by decide),
    field_merged physical isLayout rep leftFree isUsed member (by decide)]
  simp only [and_true, reduceCtorEq, and_false, if_false]
  rcases rightNotTail with (hasNext | isFirst) | ⟨afterLeft, leftFirst⟩
  · left
    split
    · next isPrev =>
        rcases leftNotTail with leftNext | leftFirst
        · exact leftNext
        · exact absurd (isPrev.trans leftFirst) rightPointer.1
    · exact hasNext
  · right
    split
    · next isNext =>
        have back := (front.linked _).prev_next leftListed (isNext ▸ rightPointer.1)
        rw [← isNext, isFirst] at back
        exact absurd back.symm leftPointer.1
    · exact isFirst
  · right
    have isNext := (front.linked _).next_prev (front.nodup _) rightListed
      (afterLeft ▸ leftPointer.1)
    rw [afterLeft] at isNext
    rw [if_pos isNext.symm, leftFirst]

/-- What a part of `tlsf_ext_free` leaves. -/
structure Became (layout : Tlsf → List Piece → Prop) (old new : Tlsf)
    (pieces newPieces : List Piece) (newLists : Nat × Nat → List Nat) : Prop where
  layout : layout new newPieces
  rep : Rep new newPieces newLists
  memory : ∀ place, Untouched pieces place → new.memory place = old.memory place
  within : ∀ piece ∈ newPieces, ∃ wider ∈ pieces, wider.ptr = piece.ptr ∧
    (piece.free = true → wider = piece)

theorem absorbed_within (before after : List Piece) (left right : Piece) :
    ∀ piece ∈ before ++ left.joined gap right :: after,
      ∃ wider ∈ before ++ left :: right :: after, wider.ptr = piece.ptr ∧
        (piece.free = true → wider = piece) := by
  intro piece member
  simp only [List.mem_append, List.mem_cons] at member
  rcases member with inBefore | isJoined | inAfter
  · exact ⟨piece, by simp [inBefore], rfl, fun _ => rfl⟩
  · exact ⟨left, by simp, by rw [isJoined, Piece.joined], by simp [isJoined, Piece.joined]⟩
  · exact ⟨piece, by simp [inAfter], rfl, fun _ => rfl⟩

theorem bitsExact_merged (physical : Physical gap layout Splits)
    (isLayout : layout tlsf (before ++ left :: right :: after))
    (rep : Rep tlsf (before ++ left :: right :: after) lists) (isExact : BitsExact tlsf lists)
    (leftNotTail : left.free = true → NotTail tlsf left.ptr)
    (rightNotTail : right.free = true → NotTail (delisted tlsf left) right.ptr) :
    BitsExact (merged gap tlsf left right)
      (delistedLists (delistedLists lists left) right) := by
  have front := rep.perm (perm_second before after left right)
  have relaid := (physical.merge_spec isLayout rep).2.2.2.2
  have first := bitsExact_delisted front isExact leftNotTail
  have second := bitsExact_delisted (front.delist.perm (.swap ..)) first rightNotTail
  intro fli sli nonempty
  rw [relaid.lists.l2Free]
  exact second fli sli nonempty

theorem Rep.merges_iff {pieces : List Piece} (rep : Rep tlsf pieces lists)
    (neighbour : Option Piece) (within : ∀ other ∈ neighbour, other ∈ pieces) :
    tlsf.Merges ((neighbour.map Piece.ptr).getD 0) ↔ ∃ other ∈ neighbour, other.free = true := by
  cases neighbour with
  | none => simp [Tlsf.Merges]
  | some other =>
      have isPiece := within other rfl
      have nonzero := (rep.pointer other isPiece).1
      simp [Tlsf.Merges, rep.blockFree isPiece, nonzero]

/-- The first merge of `tlsf_ext_free`. -/
theorem Physical.merge_prev (physical : Physical gap layout Splits)
    (isLayout : layout tlsf (before ++ piece :: after))
    (rep : Rep tlsf (before ++ piece :: after) lists) (isUsed : piece.free = false) :
    ∃ mid midLists,
      (if tlsf.Merges (tlsf.getPrevPhysblk piece.ptr) then
        tlsf.mergeBlocks (tlsf.getPrevPhysblk piece.ptr) piece.ptr else some tlsf) = some mid ∧
      (if tlsf.Merges (tlsf.getPrevPhysblk piece.ptr) then
        tlsf.getPrevPhysblk piece.ptr else piece.ptr) = (absorbPrev gap before piece).2.ptr ∧
      (absorbPrev gap before piece).2.free = false ∧
      Became layout tlsf mid (before ++ piece :: after)
        ((absorbPrev gap before piece).1 ++ (absorbPrev gap before piece).2 :: after)
        midLists ∧
      (BitsExact tlsf lists → tlsf.FreeKeepsBits piece.ptr → BitsExact mid midLists) ∧
      (∀ right ∈ after, right.free = true → tlsf.FreeKeepsBits piece.ptr →
        tlsf.getNextPhysblk piece.ptr = right.ptr → NotTail mid right.ptr) := by
  have isPrev := physical.prev isLayout rep
  have mergesIff := rep.merges_iff before.getLast?
    fun other isLast => List.mem_append_left _ (List.mem_of_getLast? isLast)
  rw [← isPrev] at mergesIff
  rcases absorbPrev_cases gap before piece with ⟨isSame, lastUsed⟩ | ⟨rest, left, isConcat,
    leftFree, isJoined⟩
  · have notMerges : ¬ tlsf.Merges (tlsf.getPrevPhysblk piece.ptr) := by
      rw [mergesIff]
      rintro ⟨other, isLast, isFree⟩
      rw [lastUsed other isLast] at isFree
      cases isFree
    rw [if_neg notMerges, if_neg notMerges, isSame]
    refine ⟨tlsf, lists, rfl, rfl, isUsed,
      ⟨isLayout, rep, fun _ _ => rfl, fun other member => ⟨other, member, rfl, fun _ => rfl⟩⟩,
      fun isExact _ => isExact, ?_⟩
    intro right inAfter rightFree keeps isNext
    have merges : tlsf.Merges (tlsf.getNextPhysblk piece.ptr) := by
      have inPieces : right ∈ before ++ piece :: after := by simp [inAfter]
      rw [isNext]
      exact ⟨(rep.pointer right inPieces).1, (rep.blockFree inPieces).trans rightFree⟩
    rcases keeps.2 merges with notTail | ⟨prevMerges, _⟩
    · exact isNext ▸ notTail
    · exact absurd prevMerges notMerges
  · subst isConcat
    rw [List.getLast?_concat] at isPrev mergesIff
    have merges : tlsf.Merges (tlsf.getPrevPhysblk piece.ptr) :=
      mergesIff.mpr ⟨left, rfl, leftFree⟩
    rw [if_pos merges, if_pos merges, isJoined, isPrev]
    rw [List.append_assoc, List.singleton_append] at isLayout rep ⊢
    have isLeft : tlsf.getPrevPhysblk piece.ptr = left.ptr := isPrev
    obtain ⟨result, newLayout, newRep, memory, _⟩ := physical.merge_spec isLayout rep
    refine ⟨_, _, result, rfl, rfl,
      ⟨newLayout, newRep, memory, absorbed_within rest after left piece⟩, ?_, ?_⟩
    · intro isExact keeps
      apply bitsExact_merged physical isLayout rep isExact
      · intro _
        exact isLeft ▸ keeps.1 merges
      · intro isFree
        rw [isUsed] at isFree
        cases isFree
    · intro right inAfter rightFree keeps isNext
      have nextMerges : tlsf.Merges (tlsf.getNextPhysblk piece.ptr) := by
        have inPieces : right ∈ rest ++ left :: piece :: after := by simp [inAfter]
        rw [isNext]
        exact ⟨(rep.pointer right inPieces).1, (rep.blockFree inPieces).trans rightFree⟩
      have rightNotTail := keeps.2 nextMerges
      rw [isNext, isLeft] at rightNotTail
      exact notTail_merged physical isLayout rep leftFree isUsed
        (List.mem_append_right _ inAfter) rightFree (isLeft ▸ keeps.1 merges)
        (rightNotTail.imp id And.right)

/-- The second merge of `tlsf_ext_free`. -/
theorem Physical.merge_next (physical : Physical gap layout Splits)
    (isLayout : layout tlsf (before ++ piece :: after))
    (rep : Rep tlsf (before ++ piece :: after) lists) (isUsed : piece.free = false) {blk : Nat}
    (isNext : blk = (after.head?.map Piece.ptr).getD 0) :
    ∃ mid midLists,
      (if tlsf.Merges blk then tlsf.mergeBlocks piece.ptr blk else some tlsf) = some mid ∧
      (absorbNext gap piece after).1.ptr = piece.ptr ∧
      (absorbNext gap piece after).1.free = false ∧
      Became layout tlsf mid (before ++ piece :: after)
        (before ++ (absorbNext gap piece after).1 :: (absorbNext gap piece after).2) midLists ∧
      (BitsExact tlsf lists → (∀ right ∈ after.head?, right.free = true →
        NotTail tlsf right.ptr) → BitsExact mid midLists) := by
  have mergesIff := rep.merges_iff after.head?
    fun other isFirst => List.mem_append_right _ (List.mem_cons_of_mem _
      (List.mem_of_head? isFirst))
  rw [← isNext] at mergesIff
  rcases absorbNext_cases gap piece after with ⟨isSame, firstUsed⟩ | ⟨right, rest, isCons,
    rightFree, isJoined⟩
  · have notMerges : ¬ tlsf.Merges blk := by
      rw [mergesIff]
      rintro ⟨other, isFirst, isFree⟩
      rw [firstUsed other isFirst] at isFree
      cases isFree
    rw [if_neg notMerges, isSame]
    exact ⟨tlsf, lists, rfl, rfl, isUsed,
      ⟨isLayout, rep, fun _ _ => rfl, fun other member => ⟨other, member, rfl, fun _ => rfl⟩⟩,
      fun isExact _ => isExact⟩
  · subst isCons
    rw [List.head?_cons] at isNext mergesIff
    have merges : tlsf.Merges blk := mergesIff.mpr ⟨right, rfl, rightFree⟩
    rw [if_pos merges, isJoined, isNext]
    obtain ⟨result, newLayout, newRep, memory, _⟩ := physical.merge_spec isLayout rep
    refine ⟨_, _, result, rfl, rfl,
      ⟨newLayout, newRep, memory, absorbed_within before rest piece right⟩, ?_⟩
    intro isExact notTail
    apply bitsExact_merged physical isLayout rep isExact
    · intro isFree
      rw [isUsed] at isFree
      cases isFree
    · intro isFree
      rw [delisted_of_used isUsed]
      exact notTail right rfl isFree

theorem extFree_eq {blk start : Nat} {mid last : Tlsf}
    (isMid : (if tlsf.Merges (tlsf.getPrevPhysblk blk) then
      tlsf.mergeBlocks (tlsf.getPrevPhysblk blk) blk else some tlsf) = some mid)
    (isStart : (if tlsf.Merges (tlsf.getPrevPhysblk blk) then
      tlsf.getPrevPhysblk blk else blk) = start)
    (isLast : (if mid.Merges (tlsf.getNextPhysblk blk) then
      mid.mergeBlocks start (tlsf.getNextPhysblk blk) else some mid) = some last) :
    tlsf.extFree blk = last.insertBlock start := by
  unfold Tlsf.extFree
  dsimp only
  generalize tlsf.getPrevPhysblk blk = prevblk at *
  generalize tlsf.getNextPhysblk blk = nextblk at *
  by_cases mergesPrev : tlsf.Merges prevblk
  · rw [if_pos mergesPrev] at isMid isStart
    unfold Tlsf.Merges at mergesPrev
    rw [if_pos mergesPrev, isMid, Option.bind_eq_bind, Option.bind_some, if_pos mergesPrev,
      isStart]
    by_cases mergesNext : mid.Merges nextblk
    · rw [if_pos mergesNext] at isLast
      unfold Tlsf.Merges at mergesNext
      rw [if_pos mergesNext, isLast, Option.bind_some]
    · rw [if_neg mergesNext] at isLast
      unfold Tlsf.Merges at mergesNext
      rw [if_neg mergesNext, Option.some.inj isLast, Option.bind_some]
  · rw [if_neg mergesPrev] at isMid isStart
    cases isMid
    unfold Tlsf.Merges at mergesPrev
    rw [if_neg mergesPrev, Option.bind_eq_bind, Option.bind_some, if_neg mergesPrev, isStart]
    by_cases mergesNext : tlsf.Merges nextblk
    · rw [if_pos mergesNext] at isLast
      unfold Tlsf.Merges at mergesNext
      rw [if_pos mergesNext, isLast, Option.bind_some]
    · rw [if_neg mergesNext] at isLast
      unfold Tlsf.Merges at mergesNext
      rw [if_neg mergesNext, Option.some.inj isLast, Option.bind_some]

/-- What `tlsf_ext_free` does to a used block. -/
theorem Physical.extFree_spec (physical : Physical gap layout Splits)
    (isLayout : layout tlsf (before ++ piece :: after))
    (rep : Rep tlsf (before ++ piece :: after) lists) (isUsed : piece.free = false) :
    ∃ next newLists, tlsf.extFree piece.ptr = some next ∧
      layout next (released gap before piece after) ∧
      Rep next (released gap before piece after) newLists ∧
      (∀ place, Untouched (before ++ piece :: after) place →
        Untouched (released gap before piece after) place →
        next.memory place = tlsf.memory place) ∧
      (BitsExact tlsf lists → tlsf.FreeKeepsBits piece.ptr → BitsExact next newLists) := by
  obtain ⟨mid, midLists, isMid, isPtr, midUsed, became, midExact, midNotTail⟩ :=
    physical.merge_prev isLayout rep isUsed
  have isNext := physical.next isLayout rep
  obtain ⟨last, lastLists, isLast, lastPtr, lastUsed, lastBecame, lastExact⟩ :=
    physical.merge_next became.layout became.rep midUsed isNext
  obtain ⟨next, newLists, isResult, newLayout, newRep, memory, newExact⟩ :=
    physical.insert_spec lastBecame.layout lastBecame.rep lastUsed
  refine ⟨next, newLists, ?_, newLayout, newRep, ?_, ?_⟩
  · rw [extFree_eq isMid isPtr isLast, ← lastPtr]
    exact isResult
  · intro place untouched newUntouched
    rw [memory place newUntouched, lastBecame.memory place (untouched.mono became.within),
      became.memory place untouched]
  · intro isExact keeps
    apply newExact
    apply lastExact (midExact isExact keeps)
    intro right isFirst rightFree
    apply midNotTail right (List.mem_of_head? isFirst) rightFree keeps
    rw [isNext, isFirst]
    rfl

end Merge

end MallocSurvey.Tlsf1
