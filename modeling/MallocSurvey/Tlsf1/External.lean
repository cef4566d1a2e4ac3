import MallocSurvey.Tlsf1.Taking

/-! # External headers

The headers are allocated by `malloc` and chained in the order of the addresses they
describe. -/

namespace MallocSurvey.Tlsf1

open Library

/-- The chain of external headers tiles the space. -/
structure External (baseptr size : Nat) (tlsf : Tlsf) (pieces : List Piece) : Prop where
  header : tlsf.blkHdrLen = 0
  chain : tlsf.blklist = pieces.map Piece.ptr
  tiles : Tiles (tlsf.field · .addr) 0 baseptr pieces (baseptr + size)
  base : tlsf.baseptr = baseptr
  whole : tlsf.size = size
  fits : baseptr + size ≤ 2 ^ 64
  small : size < 2 ^ 64

/-- What `malloc` may answer: `NULL` or memory apart from the headers. -/
def AnswersHeader (tlsf : Tlsf) (answer : Nat) : Prop :=
  answer = 0 ∨ answer + Tlsf.sizeofExtblk ≤ 2 ^ 64 ∧
    ∀ blk ∈ tlsf.blklist, Library.Apart blk Tlsf.sizeofExtblk answer Tlsf.sizeofExtblk

variable {tlsf : Tlsf} {before after pieces : List Piece} {piece left right : Piece}
  {lists : Nat × Nat → List Nat} {baseptr space : Nat}

theorem External.next (external : External baseptr space tlsf (before ++ piece :: after))
    (rep : Rep tlsf (before ++ piece :: after) lists) :
    tlsf.getNextPhysblk piece.ptr = (after.head?.map Piece.ptr).getD 0 := by
  rw [Tlsf.getNextPhysblk, if_neg (not_not.mpr external.header), Tlsf.tailqNext, external.chain,
    List.map_append, List.map_cons, successor_append rep.ptr_not_mem.1]
  cases after <;> rfl

theorem External.prev (external : External baseptr space tlsf (before ++ piece :: after))
    (rep : Rep tlsf (before ++ piece :: after) lists) :
    tlsf.getPrevPhysblk piece.ptr = (before.getLast?.map Piece.ptr).getD 0 := by
  have fresh : piece.ptr ∉ (after.map Piece.ptr).reverse := by
    rw [List.mem_reverse]
    exact rep.ptr_not_mem.2
  rw [Tlsf.getPrevPhysblk, if_neg (not_not.mpr external.header), Tlsf.tailqPrev, external.chain,
    List.map_append, List.map_cons, List.reverse_append, List.reverse_cons, List.append_assoc,
    List.singleton_append, successor_append fresh]
  rcases List.eq_nil_or_concat before with isNil | ⟨rest, last, isConcat⟩
  · rw [isNil]
    rfl
  · rw [isConcat, List.concat_eq_append]
    simp

theorem External.congr {new : Tlsf} {newPieces : List Piece} (external : External baseptr space tlsf pieces)
    (same : SameSpace tlsf new)
    (addr : ∀ piece ∈ pieces, new.field piece.ptr .addr = tlsf.field piece.ptr .addr)
    (extents : newPieces.map Piece.extent = pieces.map Piece.extent) :
    External baseptr space new newPieces := by
  have tiles : Tiles (new.field · .addr) 0 baseptr pieces (baseptr + space) := by
    apply Tiles.congr external.tiles
    exact addr
  refine ⟨same.blkHdrLen.trans external.header, ?_, tiles.of_extent extents,
    same.baseptr.trans external.base, same.size.trans external.whole, external.fits,
    external.small⟩
  rw [same.blklist, external.chain, map_ptr_of_extent extents]

theorem External.covered_eq (external : External baseptr space tlsf pieces) :
    covered 0 pieces = space := by
  have stop := external.tiles.stop_eq
  omega

/-- The header of the right block is freed. -/
theorem External.merge (external : External baseptr space tlsf (before ++ left :: right :: after))
    (rep : Rep tlsf (before ++ left :: right :: after) lists) (len : Nat) (fits : len < 2 ^ 64)
    (isLen : len = (left.joined 0 right).len) :
    let next := (tlsf.setField left.ptr .len len).blockHdrFree right.ptr
    External baseptr space next (before ++ left.joined 0 right :: after) ∧
      Relaid tlsf next [left.joined 0 right] (before ++ after) ∧
      ∀ place, Untouched (before ++ left :: right :: after) place →
        next.memory place = tlsf.memory place := by
  intro next
  have front := rep.perm (perm_second before after left right)
  have isNext : next = { tlsf.setField left.ptr .len len with
      blklist := (tlsf.setField left.ptr .len len).blklist.erase right.ptr } :=
    if_neg (not_not.mpr external.header)
  have fields : ∀ blk name, next.field blk name =
      (tlsf.setField left.ptr .len len).field blk name := by
    intro blk name
    rw [isNext]
    rfl
  have memory : next.memory = (tlsf.setField left.ptr .len len).memory := by
    rw [isNext]
  have rightFresh : right.ptr ∉ (before ++ [left]).map Piece.ptr := by
    have reordered : before ++ left :: right :: after = (before ++ [left]) ++ right :: after := by
      simp
    rw [reordered] at rep
    exact rep.ptr_not_mem.1
  refine ⟨?_, ⟨?_, ?_, ?_⟩, ?_⟩
  · refine ⟨?_, ?_, ?_, ?_, ?_, external.fits, external.small⟩
    · rw [isNext]
      exact external.header
    · rw [isNext]
      have chain : (tlsf.setField left.ptr .len len).blklist =
          (before ++ left :: right :: after).map Piece.ptr := external.chain
      simp only
      rw [chain]
      have isMap : (before ++ left :: right :: after).map Piece.ptr =
          (before ++ [left]).map Piece.ptr ++ right.ptr :: after.map Piece.ptr := by
        simp
      rw [isMap, List.erase_append_right _ rightFresh, List.erase_cons_head]
      simp [Piece.joined]
    · apply external.tiles.join.congr
      intro other member
      have inOld : ∃ old ∈ before ++ left :: right :: after, old.ptr = other.ptr := by
        obtain ⟨old, oldMem, samePtr, _⟩ := absorbed_within before after left right other member
        exact ⟨old, oldMem, samePtr⟩
      obtain ⟨old, oldMem, samePtr⟩ := inOld
      rw [fields, ← samePtr, Tlsf.field_setField (rep.separate oldMem (by simp)) fits]
      simp
    · rw [isNext]
      exact external.base
    · rw [isNext]
      exact external.whole
  · rw [isNext]
    exact ⟨rfl, rfl, rfl, rfl⟩
  · intro other member name _
    have inOthers : other ∈ right :: (before ++ after) := List.mem_cons_of_mem _ member
    rw [fields, Tlsf.field_setField (front.separate (List.mem_cons_of_mem _ inOthers)
      List.mem_cons_self) fits, if_neg]
    exact fun both => front.ptr_ne inOthers both.1
  · intro other member
    have samePtr : (left.joined 0 right).ptr = left.ptr := rfl
    rw [List.mem_singleton.mp member, samePtr, fields, Tlsf.field_setField (.refl _) fits,
      if_pos ⟨rfl, rfl⟩, isLen]
  · intro place untouched
    rw [memory]
    apply Tlsf.setField_memory_header (by decide)
    exact @Untouched.header _ left place untouched (by simp)

/-- `TAILQ_INSERT_AFTER` in the chain. -/
theorem tailqInsertAfter_map (rep : Rep tlsf (before ++ piece :: after) lists) (answer : Nat) :
    Tlsf.tailqInsertAfter ((before ++ piece :: after).map Piece.ptr) piece.ptr answer =
      before.map Piece.ptr ++ piece.ptr :: answer :: after.map Piece.ptr := by
  have keep : ∀ blks : List Nat, piece.ptr ∉ blks →
      Tlsf.tailqInsertAfter blks piece.ptr answer = blks := by
    intro blks fresh
    induction blks with
    | nil => rfl
    | cons first rest induction =>
        rw [List.mem_cons, not_or] at fresh
        rw [Tlsf.tailqInsertAfter, List.flatMap_cons, if_neg (Ne.symm fresh.1),
          ← Tlsf.tailqInsertAfter, induction fresh.2, List.singleton_append]
  have append : ∀ front rest : List Nat,
      Tlsf.tailqInsertAfter (front ++ rest) piece.ptr answer =
        Tlsf.tailqInsertAfter front piece.ptr answer ++
          Tlsf.tailqInsertAfter rest piece.ptr answer :=
    fun front rest => List.flatMap_append ..
  have single : Tlsf.tailqInsertAfter [piece.ptr] piece.ptr answer = [piece.ptr, answer] := by
    simp [Tlsf.tailqInsertAfter]
  obtain ⟨beforeFresh, afterFresh⟩ := rep.ptr_not_mem
  rw [List.map_append, List.map_cons, ← List.singleton_append, append, append, single,
    keep _ beforeFresh, keep _ afterFresh]
  rfl

/-- `split_block` without a header. -/
theorem splitBlock_null (header : tlsf.blkHdrLen = 0) (size : Nat) :
    tlsf.splitBlock piece.ptr size 0 =
      (0, (tlsf.setField piece.ptr .len size).setField piece.ptr .len
        (addWord size (subWord (subWord (tlsf.blockLength piece.ptr) 0) size))) := by
  have alloc : ∀ state : Tlsf, state.blkHdrLen = 0 → ∀ parent len,
      state.blockHdrAlloc parent len 0 = (0, state) := by
    intro state isExternal parent len
    rw [Tlsf.blockHdrAlloc, if_neg (not_not.mpr isExternal), if_pos rfl]
  rw [Tlsf.splitBlock, alloc (tlsf.setField piece.ptr .len size) header, header]
  exact if_neg (not_not.mpr rfl)

/-- The new header and its place in the chain. -/
def chained (tlsf : Tlsf) (blk size answer remsize : Nat) : Tlsf :=
  let tlsf := tlsf.setField blk .len size
  let tlsf := tlsf.setField answer .addr (addWord (tlsf.field blk .addr) (tlsf.field blk .len))
  { tlsf with blklist := Tlsf.tailqInsertAfter tlsf.blklist blk answer }.setField answer .len
    remsize

theorem splitBlock_answer (header : tlsf.blkHdrLen = 0) {answer : Nat} (nonzero : answer ≠ 0)
    (blk size : Nat) :
    tlsf.splitBlock blk size answer =
      (answer, chained tlsf blk size answer
        (subWord (subWord (tlsf.blockLength blk) 0) size)) := by
  have alloc : ∀ state : Tlsf, state.blkHdrLen = 0 → ∀ parent len,
      state.blockHdrAlloc parent len answer =
        (answer, ({ state.setField answer .addr
          (addWord (state.field parent .addr) (state.field parent .len)) with
            blklist := Tlsf.tailqInsertAfter state.blklist parent answer }).setField answer .len
              len) := by
    intro state isExternal parent len
    rw [Tlsf.blockHdrAlloc, if_neg (not_not.mpr isExternal), if_neg nonzero]
    rfl
  rw [Tlsf.splitBlock, alloc (tlsf.setField blk .len size) header, header]
  exact if_pos nonzero

theorem field_chained {blk size answer remsize other : Nat} {name : Field}
    (separateBlk : Separate other blk) (separateAnswer : Separate other answer)
    (sizeLt : size < 2 ^ 64) (remLt : remsize < 2 ^ 64) :
    (chained tlsf blk size answer remsize).field other name =
      if other = answer ∧ name = .len then remsize
      else if other = answer ∧ name = .addr then addWord (tlsf.field blk .addr) size
      else if other = blk ∧ name = .len then size
      else tlsf.field other name := by
  have addrLt : addWord (tlsf.field blk .addr) size < 2 ^ 64 := Nat.mod_lt _ (by decide)
  have isAddr : addWord ((tlsf.setField blk .len size).field blk .addr)
      ((tlsf.setField blk .len size).field blk .len) = addWord (tlsf.field blk .addr) size := by
    rw [Tlsf.field_setField (.refl _) sizeLt, Tlsf.field_setField (.refl _) sizeLt]
    simp
  have unfolded : (chained tlsf blk size answer remsize).field other name =
      (((tlsf.setField blk .len size).setField answer .addr
        (addWord (tlsf.field blk .addr) size)).setField answer .len remsize).field other name := by
    rw [chained]
    simp only [isAddr]
    simp only [Tlsf.field, Tlsf.setField]
  rw [unfolded, Tlsf.field_setField separateAnswer remLt,
    Tlsf.field_setField separateAnswer addrLt, Tlsf.field_setField separateBlk sizeLt]

theorem chained_memory {blk size answer remsize place : Nat}
    (outsideBlk : place < blk ∨ blk + blkHdrLen ≤ place)
    (outsideAnswer : place < answer ∨ answer + blkHdrLen ≤ place) :
    (chained tlsf blk size answer remsize).memory place = tlsf.memory place := by
  rw [chained, Tlsf.setField_memory_header (by decide) outsideAnswer]
  simp only
  rw [Tlsf.setField_memory_header (by decide) outsideAnswer,
    Tlsf.setField_memory_header (by decide) outsideBlk]

section Projections

variable (blk size answer remsize : Nat)

@[simp] theorem chained_baseptr :
    (chained tlsf blk size answer remsize).baseptr = tlsf.baseptr := by
  unfold chained
  rfl

@[simp] theorem chained_size : (chained tlsf blk size answer remsize).size = tlsf.size := by
  unfold chained
  rfl

@[simp] theorem chained_blkHdrLen :
    (chained tlsf blk size answer remsize).blkHdrLen = tlsf.blkHdrLen := by
  unfold chained
  rfl

@[simp] theorem chained_blklist : (chained tlsf blk size answer remsize).blklist =
    Tlsf.tailqInsertAfter tlsf.blklist blk answer := by
  unfold chained
  rfl

theorem sameLists_chained : SameLists tlsf (chained tlsf blk size answer remsize) := by
  unfold chained
  exact ⟨rfl, rfl, rfl, rfl⟩

end Projections

/-- The block keeps its length if there is no header. -/
theorem External.split_null (external : External baseptr space tlsf (before ++ piece :: after))
    (rep : Rep tlsf (before ++ piece :: after) lists) {size : Nat} (fits : size ≤ piece.len) :
    ∃ next, tlsf.splitBlock piece.ptr size 0 = (0, next) ∧
      External baseptr space next (before ++ piece :: after) ∧ Relaid tlsf next [piece] (before ++ after) ∧
      ∀ place, Untouched (before ++ piece :: after) place →
        next.memory place = tlsf.memory place := by
  have front := rep.perm List.perm_middle
  have pieceLt := front.len_lt List.mem_cons_self
  have isLen : addWord size (subWord (subWord (tlsf.blockLength piece.ptr) 0) size) = piece.len := by
    rw [front.blockLength List.mem_cons_self, subWord_of_le (Nat.zero_le _) pieceLt, Nat.sub_zero,
      subWord_of_le fits pieceLt, addWord_of_lt (by omega)]
    omega
  have fields : ∀ other ∈ piece :: (before ++ after), ∀ name,
      ((tlsf.setField piece.ptr .len size).setField piece.ptr .len piece.len).field other.ptr
        name = if other.ptr = piece.ptr ∧ name = .len then piece.len
          else tlsf.field other.ptr name := by
    intro other member name
    rw [Tlsf.field_setField (front.separate member List.mem_cons_self) pieceLt,
      Tlsf.field_setField (front.separate member List.mem_cons_self) (by omega)]
    split <;> rfl
  refine ⟨_, splitBlock_null external.header size, ?_, ⟨⟨rfl, rfl, rfl, rfl⟩, ?_, ?_⟩, ?_⟩
  · rw [isLen]
    have addr : ∀ other ∈ before ++ piece :: after,
        ((tlsf.setField piece.ptr .len size).setField piece.ptr .len piece.len).field other.ptr
          .addr = tlsf.field other.ptr .addr := by
      intro other member
      rw [fields other (List.perm_middle.mem_iff.mp member)]
      simp
    exact External.congr external ⟨rfl, rfl, rfl, rfl⟩ addr rfl
  · intro other member name _
    rw [isLen, fields other (List.mem_cons_of_mem _ member), if_neg]
    exact fun both => front.ptr_ne member both.1
  · intro other member
    rw [List.mem_singleton.mp member, isLen, fields piece List.mem_cons_self, if_pos ⟨rfl, rfl⟩]
  · intro place untouched
    have outside := (@Untouched.header _ piece place untouched (by simp))
    rw [Tlsf.setField_memory_header (by decide) outside,
      Tlsf.setField_memory_header (by decide) outside]

/-- The rest gets the header that `malloc` returned. -/
theorem External.split_answer (external : External baseptr space tlsf (before ++ piece :: after))
    (rep : Rep tlsf (before ++ piece :: after) lists) {size answer : Nat}
    (leaves : size + mbs ≤ piece.len) (nonzero : answer ≠ 0) (answers : AnswersHeader tlsf answer) :
    let news : List Piece := [⟨piece.ptr, size, false⟩, ⟨answer, piece.len - size - 0, false⟩]
    ∃ next, tlsf.splitBlock piece.ptr size answer = (answer, next) ∧ answer < 2 ^ 64 ∧
      External baseptr space next (before ++ news ++ after) ∧ Relaid tlsf next news (before ++ after) ∧
      ((news ++ (before ++ after)).map Piece.ptr).Pairwise
        (fun left right => Library.Apart left sizeofBlk right sizeofBlk) ∧
      ∀ place, Untouched (before ++ piece :: after) place →
        (place < answer ∨ answer + (sizeofBlk + (piece.len - size - 0)) ≤ place) →
        next.memory place = tlsf.memory place := by
  intro news
  obtain ⟨answerFits, fresh⟩ := answers.resolve_left nonzero
  have front := rep.perm List.perm_middle
  have pieceLt := front.len_lt List.mem_cons_self
  have isRem : subWord (subWord (tlsf.blockLength piece.ptr) 0) size = piece.len - size := by
    rw [front.blockLength List.mem_cons_self, subWord_of_le (Nat.zero_le _) pieceLt, Nat.sub_zero,
      subWord_of_le (by omega) pieceLt]
  have apart : ∀ other ∈ piece :: (before ++ after),
      Library.Apart other.ptr sizeofBlk answer sizeofBlk := by
    intro other member
    have isHeader : other.ptr ∈ tlsf.blklist := by
      rw [external.chain]
      exact List.mem_map_of_mem (List.perm_middle.mem_iff.mpr member)
    have large := fresh _ isHeader
    unfold Library.Apart Tlsf.sizeofExtblk at large
    unfold Library.Apart sizeofBlk
    omega
  have answerNe : ∀ other ∈ piece :: (before ++ after), other.ptr ≠ answer := by
    intro other member same
    have ownApart := apart other member
    unfold Library.Apart sizeofBlk at ownApart
    omega
  have fields : ∀ other ∈ piece :: (before ++ after), ∀ name,
      (chained tlsf piece.ptr size answer (piece.len - size)).field other.ptr name =
        if other.ptr = piece.ptr ∧ name = .len then size else tlsf.field other.ptr name := by
    intro other member name
    rw [field_chained (front.separate member List.mem_cons_self) (.inr (apart other member))
      (by omega) (by omega)]
    simp [answerNe other member]
  have answerFields : ∀ name,
      (chained tlsf piece.ptr size answer (piece.len - size)).field answer name =
        if name = .len then piece.len - size
        else if name = .addr then addWord (tlsf.field piece.ptr .addr) size
        else tlsf.field answer name := by
    intro name
    have own := apart piece List.mem_cons_self
    rw [field_chained (.inr own.symm) (.refl _) (by omega) (by omega)]
    simp [Ne.symm (answerNe piece List.mem_cons_self)]
  refine ⟨chained tlsf piece.ptr size answer (piece.len - size), ?_, ?_, ?_, ⟨?_, ?_, ?_⟩, ?_, ?_⟩
  · rw [splitBlock_answer external.header nonzero, isRem]
  · unfold Tlsf.sizeofExtblk at answerFits
    omega
  · refine ⟨?_, ?_, ?_, ?_, ?_, external.fits, external.small⟩
    · rw [chained_blkHdrLen]
      exact external.header
    · rw [chained_blklist, external.chain, tailqInsertAfter_map rep]
      simp [news]
    · rw [List.append_assoc, tiles_append]
      obtain ⟨frontTiles, pieceAddr, restTiles⟩ := tiles_append.mp external.tiles
      have stop := restTiles.stop_eq
      have spaceFits := external.fits
      have positive : 0 < mbs := by decide
      refine ⟨?_, ?_, ?_, ?_⟩
      · apply Tiles.congr frontTiles
        intro other member
        rw [fields other (by simp [member])]
        simp
      · simp only
        rw [fields piece List.mem_cons_self]
        simpa using pieceAddr
      · simp only at pieceAddr ⊢
        rw [answerFields]
        simp only [reduceCtorEq, if_false, if_true]
        rw [pieceAddr, addWord_of_lt (by omega), Nat.zero_add]
      · have sameStart : baseptr + covered 0 before + (0 + size) +
            (0 + (piece.len - size - 0)) = baseptr + covered 0 before + (0 + piece.len) := by
          omega
        simp only
        rw [sameStart]
        apply Tiles.congr restTiles
        intro other member
        rw [fields other (by simp [member])]
        simp
    · rw [chained_baseptr]
      exact external.base
    · rw [chained_size]
      exact external.whole
  · exact sameLists_chained ..
  · intro other member name _
    rw [fields other (List.mem_cons_of_mem _ member), if_neg]
    exact fun both => front.ptr_ne member both.1
  · intro other member
    simp only [news, List.mem_cons, List.not_mem_nil, or_false] at member
    rcases member with isFirst | isSecond
    · rw [isFirst]
      simp only
      rw [fields piece List.mem_cons_self, if_pos ⟨rfl, rfl⟩]
    · rw [isSecond]
      simp only
      rw [answerFields, if_pos rfl, Nat.sub_zero]
  · have spaced := front.spaced
    rw [List.map_cons, List.pairwise_cons] at spaced
    simp only [news, List.cons_append, List.nil_append, List.map_cons, List.pairwise_cons,
      List.mem_cons]
    refine ⟨?_, ?_, spaced.2⟩
    · rintro ptr (isAnswer | isOther)
      · rw [isAnswer]
        exact apart piece List.mem_cons_self
      · exact spaced.1 ptr isOther
    · intro ptr isOther
      obtain ⟨other, member, isPtr⟩ := List.mem_map.mp isOther
      rw [← isPtr]
      exact (apart other (List.mem_cons_of_mem _ member)).symm
  · intro place untouched outside
    apply chained_memory (@Untouched.header _ piece place untouched (by simp))
    have header : blkHdrLen ≤ sizeofBlk := by decide
    omega

/-- The instance of external headers. -/
theorem physical_external :
    Physical 0 (External baseptr space) fun tlsf _ _ answer => AnswersHeader tlsf answer where
  gap_even := rfl
  gap_eq external := external.header
  small external := external.covered_eq.trans_lt external.small
  congr external := external.congr
  prev external rep := external.prev rep
  next external rep := external.next rep
  merge := by
    intro tlsf before after left right lists external rep leftUsed rightUsed
    have front := rep.perm (perm_second before after left right)
    have total := front.total
    rw [List.map_cons, List.map_cons, List.sum_cons, List.sum_cons] at total
    have fits : (left.joined 0 right).len < 2 ^ 64 := by
      simp only [Piece.joined]
      omega
    exact external.merge rep _ fits rfl
  split := by
    intro tlsf before after piece size answer lists external rep isUsed even large leaves answers
    by_cases isNull : answer = 0
    · subst isNull
      obtain ⟨next, result, rest⟩ := external.split_null rep (show size ≤ piece.len by omega)
      exact ⟨0, next, result, .inl ⟨rfl, rest⟩⟩
    · obtain ⟨next, result, rest⟩ := external.split_answer rep
        (show size + mbs ≤ piece.len by omega) isNull answers
      exact ⟨answer, next, result, .inr ⟨isNull, rest⟩⟩

end MallocSurvey.Tlsf1
