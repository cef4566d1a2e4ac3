import MallocSurvey.Tlsf.Freeing

/-! # Resizing blocks -/

namespace MallocSurvey.Tlsf

open Library

namespace Control

variable {pools : List (Nat × Nat)} {control : Control} {pieces before after rest : List Piece}
  {piece next : Piece} {lists : Nat × Nat → List Nat} {size : Nat}

/-! ## In place -/

/-- A used block has another length, and what follows has the same used blocks. -/
structure Resized (before : List Piece) (piece : Piece) (after : List Piece) (size : Nat)
    (pieces : List Piece) : Prop where
  shape : ∃ len rest, pieces = before ++ ⟨piece.ptr, len, false⟩ :: rest ∧ size ≤ len ∧
    usedPieces rest = usedPieces after
  coalesced : Coalesced (before ++ piece :: after) → Coalesced pieces

/-- The beginning of a block. -/
def KeptPrefix (ptr length : Nat) (memory newMemory : Memory) : Prop :=
  Kept [⟨ptr, length, false⟩] memory newMemory

theorem Kept.prefix_of {held : List Piece} {memory newMemory : Memory}
    (kept : Kept held memory newMemory) (member : piece ∈ held) {length : Nat}
    (short : length ≤ piece.len) : KeptPrefix piece.ptr length memory newMemory := by
  intro other isOther place low high
  rw [List.mem_singleton.mp isOther] at low high
  exact kept piece member place low (high.trans_le (Nat.add_le_add_left short _))

/-- The flag of the second part is cleared behind a used block. -/
theorem splitUsed_isSplit (rep : Rep pools control (before ++ piece :: next :: rest) lists [])
    (splits : Splits piece size) (isUsed : piece.free = false) :
    ∃ new, control.blockSplit piece.ptr size = some (new, (cutOff piece size).ptr) ∧
      IsSplit before piece next size control (new.blockSetPrevUsed (cutOff piece size).ptr) ∧
      KeptPrefix piece.ptr size control.memory
        (new.blockSetPrevUsed (cutOff piece size).ptr).memory := by
  obtain ⟨sizeAligned, sizeLeast, room⟩ := id splits
  obtain ⟨isNext, ptrAligned, nonzero, lenAligned, _, lenSmall, fits⟩ :=
    rep.laid.next_bounds (show piece.len ≠ 0 by omega)
  have isPtr : (cutOff piece size).ptr = piece.ptr + (8 + size) := rfl
  have cutAligned : (cutOff piece size).ptr % 8 = 0 := by omega
  have nextAligned : next.ptr % 8 = 0 := by omega
  have cutMod : (cutOff piece size).len % 4 = 0 := by
    unfold cutOff
    dsimp only
    omega
  obtain ⟨split, prevFree, isSplit, same, confined, own, cut, nextLink, nextTag, keptShort⟩ :=
    blockSplit_headers rep splits
  have others : ∀ other name, other % 8 = 0 →
      other + Field.offset name ≠ (cutOff piece size).ptr + 8 →
      (split.blockSetPrevUsed (cutOff piece size).ptr).field other name =
        split.field other name :=
    fun other name aligned notTag => field_setField_of_ne cutAligned aligned notTag
  refine ⟨split, isSplit, ⟨same.trans ⟨rfl, rfl, rfl, rfl⟩, ?_, ?_, ?_, ?_, ?_, ?_⟩, ?_⟩
  · intro place outside notTag
    have notOwned := outside piece (List.mem_singleton_self _)
    unfold Owns at notOwned
    exact (setField_outside (by simp only [Field.offset]; omega)).trans
      (confined place outside notTag)
  · rw [others _ _ ptrAligned (by simp only [Field.offset]; omega), own]
  · intro isFree
    rw [isUsed] at isFree
    cases isFree
  · rw [size_blockSetPrevUsed cutAligned, cut, tag_prevUsed cutMod, isUsed]
  · rw [others _ _ nextAligned (by simp only [Field.offset]; omega), nextLink]
  · rw [others _ _ nextAligned (by simp only [Field.offset]; omega), nextTag]
  · intro other member place low high
    rw [List.mem_singleton.mp member] at low high
    dsimp only at low high
    exact (setField_outside (by simp only [Field.offset]; omega)).trans
      (keptShort (shortened piece size) (List.mem_singleton_self _) place low high)

/-- No two adjacent blocks are free after the rest of a used block was released. -/
theorem coalesced_cut (coalesced : Coalesced (before ++ piece :: after)) (size : Nat) :
    Coalesced (before ++ (shortened piece size).used ::
      (absorbNext 8 (cutOff piece size) after).1.freed ::
        (absorbNext 8 (cutOff piece size) after).2) := by
  have isSplit : Coalesced
      ((before ++ [(shortened piece size).used]) ++ (cutOff piece size).used :: after) := by
    obtain ⟨beforeCoalesced, restCoalesced, _⟩ := List.isChain_append.mp coalesced
    rw [List.append_assoc, List.singleton_append]
    refine List.isChain_append.mpr ⟨beforeCoalesced, List.isChain_cons_cons.mpr ⟨?_,
      List.isChain_cons.mpr ⟨?_, (List.isChain_cons.mp restCoalesced).2⟩⟩, ?_⟩
    · exact fun both => Bool.false_ne_true both.1
    · exact fun other _ both => Bool.false_ne_true both.1
    · rintro _ _ _ ⟨⟩ both
      exact Bool.false_ne_true both.2
  have merged := Coalesced.released isSplit 8
  unfold released at merged
  rcases absorbPrev_cases 8 (before ++ [(shortened piece size).used]) (cutOff piece size).used with
    ⟨isSame, _⟩ | ⟨others, left, isConcat, isFree, _⟩
  · rw [isSame] at merged
    dsimp only at merged
    rw [List.append_assoc, List.singleton_append] at merged
    rcases absorbNext_cases 8 (cutOff piece size) after with ⟨sameNext, _⟩ | ⟨right, last, isCons,
      rightFree, isJoined⟩
    · rcases absorbNext_cases 8 (cutOff piece size).used after with ⟨usedNext, _⟩ | ⟨right, last, isCons,
        rightFree, isJoined⟩
      · rw [usedNext] at merged
        rw [sameNext]
        exact merged
      · rw [isJoined] at merged
        subst isCons
        simp [absorbNext, rightFree] at sameNext
    · subst isCons
      rw [isJoined]
      simp only [absorbNext, rightFree, if_true] at merged
      exact merged
  · have isLast := List.append_inj_right' isConcat rfl
    cases isLast
    cases isFree

/-- The used blocks after a block that was merged with the next one. -/
theorem usedPieces_absorbNext (piece : Piece) (after : List Piece) :
    usedPieces ((absorbNext 8 piece after).1.freed :: (absorbNext 8 piece after).2) =
      usedPieces after := by
  rw [usedPieces_cons_free rfl]
  rcases absorbNext_cases 8 piece after with ⟨isSame, _⟩ | ⟨right, last, isCons, rightFree, isSame⟩
  · rw [isSame]
  · rw [isSame, isCons, usedPieces_cons_free rightFree]

/-- The rest of a used block is released. -/
theorem blockTrimUsed_spec (rep : Rep pools control (before ++ piece :: after) lists [])
    (isUsed : piece.free = false) (notSentinel : piece.len ≠ 0) (aligned : size % 8 = 0)
    (least : 24 ≤ size) (small : size < 2 ^ 63) (holds : size ≤ piece.len) :
    ∃ new newLists pieces, control.blockTrimUsed piece.ptr size = some new ∧
      Rep pools new pieces newLists [] ∧ Resized before piece after size pieces ∧
      Kept (usedPieces (before ++ after)) control.memory new.memory ∧
      KeptPrefix piece.ptr size control.memory new.memory := by
  have notFree : ¬ control.blockIsFree piece.ptr := by
    rw [rep.blockIsFree (by simp), isUsed]
    decide
  obtain ⟨next, others, isCons, _⟩ := rep.exists_next notSentinel
  subst isCons
  have canSplit := blockCanSplit_iff rep small
  unfold blockTrimUsed
  rw [guard_bind notFree]
  by_cases room : size + 32 ≤ piece.len
  · have splits : Splits piece size := ⟨aligned, least, room⟩
    obtain ⟨split, isSplit, complete, prefixKept⟩ := splitUsed_isSplit rep splits isUsed
    have noneLoose : piece.free = true → piece.ptr ∈ ([] : List Nat) := by
      intro isFree
      rw [isUsed] at isFree
      cases isFree
    obtain ⟨splitRep, splitKept⟩ := complete.rep rep splits noneLoose
    have shifted : Rep pools (split.blockSetPrevUsed (cutOff piece size).ptr)
        ((before ++ [shortened piece size]) ++ (cutOff piece size).freed :: next :: others) lists
          [(cutOff piece size).ptr] := by
      rw [List.append_assoc]
      exact splitRep
    obtain ⟨merged, mergedLists, isMerged, mergedRep, mergedKept⟩ := blockMergeNext_spec shifted
    have mergedPtr : (absorbNext 8 (cutOff piece size) (next :: others)).1.freed.ptr =
        (cutOff piece size).ptr := by
      rcases absorbNext_cases 8 (cutOff piece size) (next :: others) with
        ⟨isSame, _⟩ | ⟨_, _, _, _, isSame⟩
      · rw [isSame]
        rfl
      · rw [isSame]
        rfl
    rw [← mergedPtr] at mergedRep
    obtain ⟨new, newLists, isInserted, newRep, newKept⟩ :=
      blockInsert_spec mergedRep (by simp) rfl (by simp)
    rw [mergedPtr] at isInserted
    have shortUsed : (shortened piece size).used = shortened piece size := by
      unfold shortened Piece.used
      rw [isUsed]
    have usedAfter := usedPieces_absorbNext (cutOff piece size) (next :: others)
    have held : usedPieces ((before ++ [shortened piece size]) ++ next :: others) =
        usedPieces ((before ++ [shortened piece size]) ++
          (absorbNext 8 (cutOff piece size) (next :: others)).1.freed ::
            (absorbNext 8 (cutOff piece size) (next :: others)).2) := by
      rw [usedPieces_append (before ++ [shortened piece size]) (next :: others), ← usedAfter,
        ← usedPieces_append]
    have shortMember : shortened piece size ∈
        usedPieces ((before ++ [shortened piece size]) ++ next :: others) := by
      refine List.mem_filter.mpr ⟨by simp, ?_⟩
      unfold shortened
      simp [isUsed]
    rw [← held] at newKept
    have restKept := mergedKept.trans newKept
    refine ⟨new, newLists, _, ?_, newRep, ⟨⟨size,
      (absorbNext 8 (cutOff piece size) (next :: others)).1.freed ::
        (absorbNext 8 (cutOff piece size) (next :: others)).2, ?_, Nat.le_refl _, ?_⟩, ?_⟩, ?_,
      prefixKept.trans (Kept.prefix_of restKept shortMember (Nat.le_refl _))⟩
    · rw [if_pos (canSplit.mpr room), isSplit, some_bind]
      dsimp only
      rw [isMerged, some_bind]
      exact isInserted
    · rw [List.append_assoc, List.singleton_append]
      exact congrArg (fun first => before ++ first :: _) shortUsed.symm
    · exact usedAfter
    · intro coalesced
      have isCut := coalesced_cut coalesced size
      rwa [shortUsed, ← List.singleton_append, ← List.append_assoc] at isCut
    · refine (splitKept.subset used_subset).trans (restKept.subset ?_)
      rw [List.append_assoc]
      exact held_subset before [shortened piece size] (next :: others)
  · refine ⟨control, lists, _, ?_, rep, ⟨⟨piece.len, next :: others, ?_, holds, rfl⟩, id⟩,
      Kept.refl _ _, Kept.refl _ _⟩
    · rw [if_neg (fun can => room (canSplit.mp can))]
      rfl
    · rw [← isUsed]

/-! ## Requests -/

/-- An accepted request is rounded up to a size the allocator works with. -/
theorem adjust_spec (nonzero : size ≠ 0) (small : size < 2 ^ 32) :
    adjustRequestSize .bits64 size 8 % 8 = 0 ∧ 24 ≤ adjustRequestSize .bits64 size 8 ∧
      size ≤ adjustRequestSize .bits64 size 8 ∧ adjustRequestSize .bits64 size 8 ≤ 2 ^ 32 := by
  have isMax : adjustRequestSize .bits64 size (2 ^ 3) =
      max (alignUp .bits64 size (2 ^ 3)) (blockSizeMin .bits64) :=
    adjustRequestSize_of_lt nonzero (small.trans_le (by decide))
  have accepted : adjustRequestSize .bits64 size (2 ^ 3) ≠ 0 := by
    have least := le_max_right (alignUp .bits64 size (2 ^ 3)) (blockSizeMin .bits64)
    rw [isMax]
    rw [blockSizeMin_bits64] at least ⊢
    omega
  obtain ⟨isUp, holds, aligned, bounded⟩ := adjustRequestSize_spec accepted (by decide) (by decide)
  have least := le_max_right ((size + (2 ^ 3 - 1)) / 2 ^ 3 * 2 ^ 3) (blockSizeMin .bits64)
  rw [← isUp, blockSizeMin_bits64] at least
  have isMultiple := Nat.mod_eq_zero_of_dvd aligned
  refine ⟨isMultiple, least, holds, ?_⟩
  have notMax : adjustRequestSize .bits64 size (2 ^ 3) ≤ 2 ^ 32 := by
    rw [isUp, blockSizeMin_bits64]
    omega
  exact notMax

theorem adjust_rejected (large : size = 0 ∨ 2 ^ 32 ≤ size) (align : Nat) :
    adjustRequestSize .bits64 size align = 0 := by
  have isMax : blockSizeMax .bits64 = 2 ^ 32 := by decide
  unfold adjustRequestSize
  rw [isMax, if_neg]
  omega

/-! ## Growing -/

/-- The merge of a used block with the free one behind it, and its new flags. -/
theorem grow_spec (rep : Rep pools control (before ++ piece :: next :: rest) lists [])
    (isUsed : piece.free = false) (notSentinel : piece.len ≠ 0) (nextFree : next.free = true) :
    ∃ merged new newLists, control.blockMergeNext piece.ptr = some merged ∧
      merged.blockMarkAsUsed piece.ptr = some new ∧
      Rep pools new (before ++ absorbed piece next :: rest) newLists [] ∧
      Kept (usedPieces (before ++ piece :: next :: rest)) control.memory new.memory := by
  have member : piece ∈ before ++ piece :: next :: rest := by simp
  have nextMember : next ∈ before ++ piece :: next :: rest := by simp
  obtain ⟨first, others, isCons, isNext⟩ := rep.exists_next notSentinel
  cases isCons
  have notLast : ¬ control.blockIsLast piece.ptr := by
    rw [blockIsLast, rep.blockSize member, decide_eq_true_eq]
    exact notSentinel
  obtain ⟨removed, removedLists, isRemoved, removedRep, removedKept⟩ :=
    blockRemove_spec rep nextMember nextFree (by simp)
  have shifted := rep
  rw [show before ++ piece :: next :: rest = (before ++ [piece]) ++ next :: rest by simp] at shifted
  obtain ⟨second, last, isCons, _⟩ :=
    shifted.exists_next (rep.laid.pooled.len_ne nextMember nextFree)
  subst isCons
  obtain ⟨absorbing, new, isAbsorbed, isMarked, newRep, newKept⟩ :=
    absorbUsed_spec removedRep isUsed notSentinel nextFree (by simp)
  refine ⟨absorbing, new, removedLists, ?_, isMarked, newRep, removedKept.trans (newKept.subset ?_)⟩
  · unfold blockMergeNext
    rw [rep.blockNext member notSentinel, some_bind, ← isNext,
      guard_bind (show next.ptr ≠ 0 by omega), rep.blockIsFree nextMember, if_pos nextFree,
      guard_bind notLast, isRemoved, some_bind]
    exact isAbsorbed
  · intro other held
    obtain ⟨isPiece, notFree⟩ := List.mem_filter.mp held
    rcases List.mem_append.mp isPiece with inBefore | isPiece
    · simp [inBefore]
    · rcases List.mem_cons.mp isPiece with isFirst | isPiece
      · simp [isFirst]
      · rcases List.mem_cons.mp isPiece with isNext | inRest
        · rw [isNext, nextFree] at notFree
          cases notFree
        · rw [List.mem_cons, List.mem_append]
          exact .inr (.inr inRest)

theorem coalesced_absorbed (coalesced : Coalesced (before ++ piece :: next :: rest))
    (isUsed : piece.free = false) : Coalesced (before ++ absorbed piece next :: rest) := by
  obtain ⟨beforeCoalesced, restCoalesced, _⟩ := List.isChain_append.mp coalesced
  have last := (List.isChain_cons_cons.mp restCoalesced).2
  have notFree : (absorbed piece next).free = false := isUsed
  refine List.isChain_append.mpr ⟨beforeCoalesced, List.isChain_cons.mpr
    ⟨?_, (List.isChain_cons.mp last).2⟩, ?_⟩
  · rintro other _ ⟨isFree, _⟩
    rw [notFree] at isFree
    cases isFree
  · rintro _ _ _ ⟨⟩ ⟨_, isFree⟩
    rw [notFree] at isFree
    cases isFree

/-- The block has room for the request, alone or with the free block behind it. -/
def HasRoom (piece : Piece) (after : List Piece) (adjust : Nat) : Prop :=
  adjust ≤ piece.len ∨
    ∃ next rest, after = next :: rest ∧ next.free = true ∧ adjust ≤ piece.len + next.len + 8

/-- A block that has room stays in its place. -/
theorem tlsfRealloc_inPlace (rep : Rep pools control (before ++ piece :: after) lists [])
    (isUsed : piece.free = false) (notSentinel : piece.len ≠ 0) (nonzero : size ≠ 0)
    (small : size < 2 ^ 32) (hasRoom : HasRoom piece after (adjustRequestSize .bits64 size 8)) :
    ∃ new newLists pieces, control.tlsfRealloc (piece.ptr + 16) size = some (new, piece.ptr + 16) ∧
      Rep pools new pieces newLists [] ∧
      Resized before piece after (adjustRequestSize .bits64 size 8) pieces ∧
      Kept (usedPieces (before ++ after)) control.memory new.memory ∧
      KeptPrefix piece.ptr (min piece.len size) control.memory new.memory := by
  obtain ⟨aligned, least, holds, bounded⟩ := adjust_spec nonzero small
  have member : piece ∈ before ++ piece :: after := by simp
  obtain ⟨next, rest, isCons, isNext⟩ := rep.exists_next notSentinel
  subst isCons
  have nextMember : next ∈ before ++ piece :: next :: rest := by simp
  have ownBounds := rep.laid.piece_bounds member
  have nextBounds := rep.laid.piece_bounds nextMember
  have notFree : ¬ control.blockIsFree piece.ptr := by
    rw [rep.blockIsFree member, isUsed]
    decide
  have isCombined : addWord .bits64 (addWord .bits64 piece.len next.len) 8 =
      piece.len + next.len + 8 := by
    have inner : addWord .bits64 piece.len next.len = piece.len + next.len :=
      addWord_of_lt (by omega)
    rw [inner, addWord_of_lt (by omega)]
  have isBlock : blockFromPtr (piece.ptr + 16) = piece.ptr := Nat.add_sub_cancel _ _
  have unfolded : control.tlsfRealloc (piece.ptr + 16) size =
      if piece.len < adjustRequestSize .bits64 size 8 ∧
          (¬ control.blockIsFree next.ptr ∨
            piece.len + next.len + 8 < adjustRequestSize .bits64 size 8) then
        control.reallocMove (piece.ptr + 16) size piece.len
      else (do
        let control ←
          if piece.len < adjustRequestSize .bits64 size 8 then do
            let control ← control.blockMergeNext piece.ptr
            control.blockMarkAsUsed piece.ptr
          else some control
        let control ← control.blockTrimUsed piece.ptr (adjustRequestSize .bits64 size 8)
        return (control, piece.ptr + 16)) := by
    unfold tlsfRealloc
    rw [if_neg (by omega), if_neg (by omega)]
    dsimp only
    rw [isBlock, rep.blockNext member notSentinel, some_bind, rep.blockSize member, ← isNext,
      rep.blockSize nextMember, blockHeaderOverhead_bits64, alignSize_bits64, isCombined,
      guard_bind notFree]
  rw [unfolded, rep.blockIsFree nextMember]
  by_cases fitsOwn : adjustRequestSize .bits64 size 8 ≤ piece.len
  · obtain ⟨new, newLists, pieces, isTrimmed, newRep, resized, kept, prefixKept⟩ :=
      blockTrimUsed_spec rep isUsed notSentinel aligned least (by omega) fitsOwn
    refine ⟨new, newLists, pieces, ?_, newRep, resized, kept, ?_⟩
    · rw [if_neg (by omega), if_neg (by omega), some_bind]
      dsimp only
      rw [isTrimmed]
      rfl
    · intro other isOther place low high
      rw [List.mem_singleton.mp isOther] at low high
      dsimp only at low high
      exact prefixKept _ (List.mem_singleton_self _) place low (by dsimp only; omega)
  · obtain ⟨first, others, isCons, nextFree, fits⟩ := hasRoom.resolve_left fitsOwn
    cases isCons
    obtain ⟨merged, grown, grownLists, isMerged, isGrown, grownRep, grownKept⟩ :=
      grow_spec rep isUsed notSentinel nextFree
    have joinedNot : (absorbed piece next).len ≠ 0 := by
      unfold absorbed
      dsimp only
      omega
    have joinedFits : adjustRequestSize .bits64 size 8 ≤ (absorbed piece next).len := by
      unfold absorbed
      dsimp only
      omega
    obtain ⟨new, newLists, pieces, isTrimmed, newRep, resized, kept, prefixKept⟩ :=
      blockTrimUsed_spec grownRep isUsed joinedNot aligned least (by omega) joinedFits
    have isTrimmed : grown.blockTrimUsed piece.ptr (adjustRequestSize .bits64 size 8) = some new :=
      isTrimmed
    have prefixKept : KeptPrefix piece.ptr (adjustRequestSize .bits64 size 8) grown.memory
        new.memory := prefixKept
    have pieceHeld : piece ∈ usedPieces (before ++ piece :: next :: rest) :=
      List.mem_filter.mpr ⟨member, by simp [isUsed]⟩
    obtain ⟨⟨len, last, isShape, large, sameUsed⟩, newCoalesced⟩ := resized
    refine ⟨new, newLists, pieces, ?_, newRep, ⟨⟨len, last, isShape, large, ?_⟩, ?_⟩, ?_, ?_⟩
    · rw [if_neg (by rw [nextFree]; simp; omega), if_pos (by omega), isMerged, some_bind, isGrown,
        some_bind]
      dsimp only
      rw [isTrimmed]
      rfl
    · rw [sameUsed, usedPieces_cons_free nextFree]
    · exact fun coalesced => newCoalesced (coalesced_absorbed coalesced isUsed)
    · have used : usedPieces (before ++ next :: rest) = usedPieces (before ++ rest) := by
        rw [usedPieces_append, usedPieces_append, usedPieces_cons_free nextFree]
      have held := held_subset before [piece] (next :: rest)
      rw [used] at held ⊢
      exact (grownKept.subset held).trans kept
    · refine (Kept.prefix_of grownKept pieceHeld (Nat.min_le_left _ _)).trans ?_
      intro other isOther place low high
      rw [List.mem_singleton.mp isOther] at low high
      dsimp only at low high
      exact prefixKept _ (List.mem_singleton_self _) place low (by dsimp only; omega)

end Control

end MallocSurvey.Tlsf
