import MallocSurvey.Tlsf.Resizing

/-! # Aligned blocks -/

namespace MallocSurvey.Tlsf

open Library

namespace Control

variable {pools : List (Nat × Nat)} {control : Control} {pieces before after rest : List Piece}
  {piece next : Piece} {lists : Nat × Nat → List Nat} {size gap ptr power : Nat}

/-! ## The gap -/

/-- Rounding up to a multiple. -/
def roundedUp (ptr align : Nat) : Nat := (ptr + (align - 1)) / align * align

theorem roundedUp_spec (ptr : Nat) {align : Nat} (positive : 0 < align) :
    ptr ≤ roundedUp ptr align ∧ roundedUp ptr align < ptr + align ∧ roundedUp ptr align % align = 0 := by
  have split := Nat.div_add_mod (ptr + (align - 1)) align
  have bound := Nat.mod_lt (ptr + (align - 1)) positive
  rw [Nat.mul_comm] at split
  refine ⟨?_, ?_, Nat.mul_mod_left _ _⟩
  · unfold roundedUp
    omega
  · unfold roundedUp
    omega

theorem roundedUp_of_multiple {align : Nat} (positive : 0 < align) (multiple : ptr % align = 0) :
    roundedUp ptr align = ptr := by
  obtain ⟨factor, isMultiple⟩ := Nat.dvd_of_mod_eq_zero multiple
  have small : (align - 1) / align = 0 := Nat.div_eq_of_lt (by omega)
  unfold roundedUp
  rw [isMultiple, Nat.mul_add_div positive, small, Nat.add_zero, Nat.mul_comm]

theorem alignPtr_roundedUp (bounded : power < 64) (fits : ptr + 2 ^ power ≤ 2 ^ 64) :
    alignPtr ptr (2 ^ power) = roundedUp ptr (2 ^ power) := by
  have positive := Nat.two_pow_pos power
  exact alignUp_eq bounded (by simp only [Arch.wordBits]; omega)

/-- A multiple of a power of two is as far below the end of the memory as the next one. -/
theorem multiple_room {value : Nat} (bounded : power < 64) (multiple : value % 2 ^ power = 0)
    (inRange : value < 2 ^ 64) : value + 2 ^ power ≤ 2 ^ 64 := by
  obtain ⟨factor, isMultiple⟩ := Nat.dvd_of_mod_eq_zero multiple
  have whole : 2 ^ 64 = 2 ^ power * 2 ^ (64 - power) := by
    rw [← pow_add, Nat.add_sub_cancel' (Nat.le_of_lt bounded)]
  rw [whole, isMultiple] at inRange
  rw [whole, isMultiple, ← Nat.mul_succ]
  exact Nat.mul_le_mul_left _ (Nat.lt_of_mul_lt_mul_left inRange)

/-- The gap is empty or holds a block, and what follows it is aligned. -/
theorem alignedGap_spec (large : 4 ≤ power) (bounded : power < 32) (aligned : ptr % 8 = 0)
    (fits : ptr + 2 ^ power + 40 ≤ 2 ^ 64) :
    (alignedGap ptr (2 ^ power) = 0 ∨ 32 ≤ alignedGap ptr (2 ^ power)) ∧
      alignedGap ptr (2 ^ power) ≤ 2 ^ power + 24 ∧ alignedGap ptr (2 ^ power) % 8 = 0 ∧
      (ptr + alignedGap ptr (2 ^ power)) % 2 ^ power = 0 := by
  have positive := Nat.two_pow_pos power
  have ofEight : 2 ^ power % 8 = 0 := Nat.mod_eq_zero_of_dvd
    (Nat.pow_dvd_pow 2 (show 3 ≤ power by omega))
  obtain ⟨low, high, multiple⟩ := roundedUp_spec ptr positive
  have upAligned : roundedUp ptr (2 ^ power) % 8 = 0 := by
    rw [← Nat.mod_mod_of_dvd _ (Nat.dvd_of_mod_eq_zero ofEight), multiple]
  have isAligned : alignPtr ptr (2 ^ power) = roundedUp ptr (2 ^ power) :=
    alignPtr_roundedUp (by omega) (by omega)
  have isFirst : subWord .bits64 (roundedUp ptr (2 ^ power)) ptr = roundedUp ptr (2 ^ power) - ptr :=
    subWord_of_le low (by omega)
  unfold alignedGap
  dsimp only
  rw [isAligned, isFirst, sizeofHeader_bits64]
  split
  · next tooSmall =>
      by_cases isSixteen : power = 4
      · subst isSixteen
        have offset : max (32 - (roundedUp ptr (2 ^ 4) - ptr)) (2 ^ 4) = 24 := by omega
        have sum : addWord .bits64 (roundedUp ptr (2 ^ 4)) 24 = roundedUp ptr (2 ^ 4) + 24 :=
          addWord_of_lt (by omega)
        have isSecond : alignPtr (roundedUp ptr (2 ^ 4) + 24) (2 ^ 4) =
            roundedUp (roundedUp ptr (2 ^ 4) + 24) (2 ^ 4) :=
          alignPtr_roundedUp (by omega) (by omega)
        have isEnd : roundedUp (roundedUp ptr (2 ^ 4) + 24) (2 ^ 4) = roundedUp ptr (2 ^ 4) + 32 := by
          conv_lhs => unfold roundedUp
          omega
        rw [offset, sum, isSecond, isEnd, subWord_of_le (by omega) (by omega)]
        omega
      · have atLeast : 2 ^ 5 ≤ 2 ^ power :=
          Nat.pow_le_pow_right (by decide) (show 5 ≤ power by omega)
        have offset : max (32 - (roundedUp ptr (2 ^ power) - ptr)) (2 ^ power) = 2 ^ power := by
          omega
        have sum : addWord .bits64 (roundedUp ptr (2 ^ power)) (2 ^ power) =
            roundedUp ptr (2 ^ power) + 2 ^ power := addWord_of_lt (by omega)
        have nextMultiple : (roundedUp ptr (2 ^ power) + 2 ^ power) % 2 ^ power = 0 := by
          rw [Nat.add_mod_right, multiple]
        have room := multiple_room (by omega) nextMultiple (by omega)
        have isSecond : alignPtr (roundedUp ptr (2 ^ power) + 2 ^ power) (2 ^ power) =
            roundedUp ptr (2 ^ power) + 2 ^ power :=
          (alignPtr_roundedUp (by omega) (by omega)).trans
            (roundedUp_of_multiple positive nextMultiple)
        rw [offset, sum, isSecond, subWord_of_le (by omega) (by omega)]
        refine ⟨by omega, by omega, by omega, ?_⟩
        rw [show ptr + (roundedUp ptr (2 ^ power) + 2 ^ power - ptr) =
          roundedUp ptr (2 ^ power) + 2 ^ power by omega]
        exact nextMultiple
  · next large =>
      refine ⟨by omega, by omega, by omega, ?_⟩
      rw [Nat.add_sub_cancel' low]
      exact multiple

/-- Blocks have addresses that are aligned to eight bytes already. -/
theorem alignedGap_small (bounded : power ≤ 3) (aligned : ptr % 8 = 0)
    (fits : ptr + 8 ≤ 2 ^ 64) : alignedGap ptr (2 ^ power) = 0 := by
  have positive := Nat.two_pow_pos power
  have small : 2 ^ power ≤ 2 ^ 3 := Nat.pow_le_pow_right (by decide) bounded
  have multiple : ptr % 2 ^ power = 0 := by
    rw [← Nat.mod_mod_of_dvd ptr (Nat.pow_dvd_pow 2 bounded)]
    rw [show ptr % 2 ^ 3 = 0 from aligned, Nat.zero_mod]
  have isAligned : alignPtr ptr (2 ^ power) = ptr :=
    (alignPtr_roundedUp (by omega) (by omega)).trans (roundedUp_of_multiple positive multiple)
  have noGap : subWord .bits64 ptr ptr = 0 := by
    rw [subWord_of_le (Nat.le_refl _) (by omega), Nat.sub_self]
  unfold alignedGap
  dsimp only
  rw [isAligned, noGap]
  rfl

/-! ## Cutting off the gap -/

/-- The front of a loose block becomes a listed block, and the rest stays loose. -/
theorem blockTrimFreeLeading_spec
    (rep : Rep pools control (before ++ piece :: next :: rest) lists [piece.ptr])
    (isFree : piece.free = true) (aligned : gap % 8 = 0) (least : 32 ≤ gap)
    (room : gap + 32 ≤ piece.len) :
    ∃ new newLists, control.blockTrimFreeLeading piece.ptr gap =
        some (new, (cutOff piece (gap - 8)).ptr) ∧
      Rep pools new (before ++ shortened piece (gap - 8) :: cutOff piece (gap - 8) :: next :: rest)
        newLists [(cutOff piece (gap - 8)).ptr] ∧
      Kept (usedPieces (before ++ next :: rest)) control.memory new.memory := by
  have bounds := rep.laid.piece_bounds (show piece ∈ _ by simp)
  have splits : Splits piece (gap - 8) := ⟨by omega, by omega, by omega⟩
  have cutAligned : (cutOff piece (gap - 8)).ptr % 8 = 0 := by
    unfold cutOff
    dsimp only
    omega
  obtain ⟨split, isSplit, ownSize, complete⟩ := linkParts_isSplit rep splits isFree
  obtain ⟨splitRep, splitKept⟩ := complete.rep rep splits fun _ => List.mem_singleton_self _
  have swapped : ∀ node, node ∈ [(shortened piece (gap - 8)).ptr, (cutOff piece (gap - 8)).ptr] ↔
      node ∈ [(cutOff piece (gap - 8)).ptr, piece.ptr] := by
    intro node
    simp [shortened, or_comm]
  have notLoose : (shortened piece (gap - 8)).ptr ∉ [(cutOff piece (gap - 8)).ptr] := by
    unfold shortened cutOff
    simp
  obtain ⟨new, newLists, isInserted, newRep, newKept⟩ :=
    blockInsert_spec (splitRep.loose_congr swapped) (by simp) isFree notLoose
  have isInserted : (split.linkParts piece.ptr (cutOff piece (gap - 8)).ptr).blockInsert piece.ptr =
      some new := isInserted
  have canSplit := (blockCanSplit_iff rep (by omega)).mpr room
  have isSize : subWord .bits64 gap 8 = gap - 8 := subWord_of_le (by omega) (by omega)
  have held := held_subset before [shortened piece (gap - 8), cutOff piece (gap - 8)] (next :: rest)
  refine ⟨new, newLists, ?_, newRep, (splitKept.subset used_subset).trans (newKept.subset held)⟩
  unfold blockTrimFreeLeading
  rw [if_pos canSplit, blockHeaderOverhead_bits64, isSize, isSplit, some_bind]
  dsimp only
  have flagged : (split.blockSetPrevFree (cutOff piece (gap - 8)).ptr).blockSize piece.ptr = gap - 8 := by
    have stays : (split.blockSetPrevFree (cutOff piece (gap - 8)).ptr).field piece.ptr .size =
        split.field piece.ptr .size :=
      field_setField_of_ne cutAligned bounds.1 (by simp only [Field.offset, cutOff]; omega)
    rw [blockSize, stays]
    exact ownSize
  have isCut : piece.ptr + (8 + (gap - 8)) = (cutOff piece (gap - 8)).ptr := rfl
  rw [blockLinkNext_cut flagged (by omega) (by omega), some_bind, isCut]
  dsimp only
  rw [linkParts_comm cutAligned, isInserted]
  rfl

/-! ## Requests -/

/-- The size that `tlsf_memalign` searches for. -/
def alignedSize (align size : Nat) : Nat :=
  if align ≤ alignSize .bits64 then adjustRequestSize .bits64 size 8
  else sizeWithGap (adjustRequestSize .bits64 size 8) align

/-- The search size has room for the request, the alignment and a block in front. -/
theorem sizeWithGap_spec {adjust : Nat} (large : 4 ≤ power) (bounded : power < 64)
    (small : adjust ≤ 2 ^ 32) (accepted : sizeWithGap adjust (2 ^ power) ≠ 0) :
    power < 32 ∧ adjust + 2 ^ power + 32 ≤ sizeWithGap adjust (2 ^ power) ∧
      sizeWithGap adjust (2 ^ power) % 8 = 0 := by
  have powerLe : 2 ^ power ≤ 2 ^ 63 := Nat.pow_le_pow_right (by decide) (by omega)
  have isInner : addWord .bits64 adjust (2 ^ power) = adjust + 2 ^ power := addWord_of_lt (by omega)
  have isSum : addWord .bits64 (adjust + 2 ^ power) 32 = adjust + 2 ^ power + 32 :=
    addWord_of_lt (by omega)
  have isSize : sizeWithGap adjust (2 ^ power) =
      adjustRequestSize .bits64 (adjust + 2 ^ power + 32) (2 ^ power) := by
    unfold sizeWithGap
    rw [isInner, sizeofHeader_bits64, isSum]
  rw [isSize] at accepted ⊢
  have inRange : adjust + 2 ^ power + 32 < 2 ^ 32 := by
    by_contra tooLarge
    exact accepted (adjust_rejected (.inr (Nat.le_of_not_lt tooLarge)) _)
  have powerLt : power < 32 := by
    by_contra tooLarge
    have atLeast : 2 ^ 32 ≤ 2 ^ power := Nat.pow_le_pow_right (by decide) (by omega)
    omega
  obtain ⟨_, holds, aligned, _⟩ := adjustRequestSize_spec accepted
    (show 3 ≤ power by omega) bounded
  exact ⟨powerLt, holds, Nat.mod_eq_zero_of_dvd aligned⟩

/-- The blocks that a loose block is cut into so that the rest is aligned. -/
def LeadingCut (piece target : Piece) (lead : List Piece) : Prop :=
  lead = [] ∧ target = piece ∨
    ∃ size, Splits piece size ∧ lead = [shortened piece size] ∧ target = cutOff piece size

/-- The block that is found is cut so that the rest is aligned. -/
theorem memalign_front (rep : Rep pools control pieces lists []) (bounded : power < 64)
    (nonzero : size ≠ 0) (small : size < 2 ^ 32)
    (searchable : Searchable (alignedSize (2 ^ power) size)) :
    (control.tlsfMemalign (2 ^ power) size = some (control, 0) ∧
        NoneFits pieces (alignedSize (2 ^ power) size)) ∨
      ∃ cut cutLists before piece after lead target, pieces = before ++ piece :: after ∧
        piece.free = true ∧ LeadingCut piece target lead ∧ target.free = true ∧
        adjustRequestSize .bits64 size 8 ≤ target.len ∧ (target.ptr + 16) % 2 ^ power = 0 ∧
        control.tlsfMemalign (2 ^ power) size =
          cut.blockPrepareUsed target.ptr (adjustRequestSize .bits64 size 8) ∧
        Rep pools cut ((before ++ lead) ++ target :: after) cutLists [target.ptr] ∧
        Kept (usedPieces (before ++ after)) control.memory cut.memory := by
  obtain ⟨adjustAligned, least, _, adjustSmall⟩ := adjust_spec nonzero small
  unfold tlsfMemalign
  rw [alignSize_bits64]
  dsimp only
  rw [show (if 2 ^ power ≤ 8 then adjustRequestSize .bits64 size 8
    else sizeWithGap (adjustRequestSize .bits64 size 8) (2 ^ power)) = alignedSize (2 ^ power) size
    from rfl]
  rcases blockLocateFree_spec rep searchable with ⟨isNone, noneFits⟩ |
    ⟨located, locatedLists, piece, member, isFree, holds, _, isLocated, locatedRep, locatedKept⟩
  · refine .inl ⟨?_, noneFits⟩
    rw [isNone, some_bind]
    rfl
  · right
    obtain ⟨before, after, isSplit⟩ := List.append_of_mem member
    subst isSplit
    have bounds := rep.laid.piece_bounds member
    have notSentinel := rep.laid.pooled.len_ne member isFree
    obtain ⟨next, rest, isCons, _⟩ := rep.exists_next notSentinel
    subst isCons
    have locatedKept := locatedKept.subset (held_subset before [piece] (next :: rest))
    rw [isLocated, some_bind]
    dsimp only
    rw [if_pos (show piece.ptr ≠ 0 by omega), blockToPtr_eq]
    by_cases small : power ≤ 3
    · -- blocks are aligned already
      have powerLe : 2 ^ power ≤ 2 ^ 3 := Nat.pow_le_pow_right (by decide) small
      have isAdjust : alignedSize (2 ^ power) size = adjustRequestSize .bits64 size 8 :=
        if_pos powerLe
      have noGap := alignedGap_small small (show (piece.ptr + 16) % 8 = 0 by omega) (by omega)
      have multiple : (piece.ptr + 16) % 2 ^ power = 0 := by
        have ofEight : (piece.ptr + 16) % 2 ^ 3 = 0 := by omega
        rw [← Nat.mod_mod_of_dvd (piece.ptr + 16) (Nat.pow_dvd_pow 2 small), ofEight, Nat.zero_mod]
      refine ⟨located, locatedLists, before, piece, next :: rest, [], piece, rfl, isFree,
        .inl ⟨rfl, rfl⟩, isFree, isAdjust ▸ holds, multiple, ?_, ?_, locatedKept⟩
      · rw [noGap, if_neg (by decide)]
      · rwa [List.append_nil]
    · have powerGe : 4 ≤ power := by omega
      have powerLarge : 2 ^ 4 ≤ 2 ^ power := Nat.pow_le_pow_right (by decide) powerGe
      have isGapped : alignedSize (2 ^ power) size =
          sizeWithGap (adjustRequestSize .bits64 size 8) (2 ^ power) := if_neg (by
        rw [alignSize_bits64]
        omega)
      have searchLeast := searchable.least
      rw [isGapped] at holds searchLeast
      obtain ⟨powerLt, room, _⟩ := sizeWithGap_spec powerGe bounded adjustSmall (by omega)
      obtain ⟨empty, gapLe, gapAligned, multiple⟩ :=
        alignedGap_spec powerGe powerLt (show (piece.ptr + 16) % 8 = 0 by omega) (by omega)
      generalize alignedGap (piece.ptr + 16) (2 ^ power) = gap at *
      by_cases isEmpty : gap = 0
      · subst isEmpty
        refine ⟨located, locatedLists, before, piece, next :: rest, [], piece, rfl, isFree,
          .inl ⟨rfl, rfl⟩, isFree, by omega, multiple, ?_, ?_, locatedKept⟩
        · rw [if_neg (by decide)]
        · rwa [List.append_nil]
      · have gapLeast : 32 ≤ gap := empty.resolve_left isEmpty
        have splits : Splits piece (gap - 8) := ⟨by omega, by omega, by omega⟩
        have isTarget : (cutOff piece (gap - 8)).ptr = piece.ptr + gap := by
          unfold cutOff
          dsimp only
          omega
        obtain ⟨cut, cutLists, isCut, cutRep, cutKept⟩ :=
          blockTrimFreeLeading_spec locatedRep isFree gapAligned gapLeast (by omega)
        refine ⟨cut, cutLists, before, piece, next :: rest, [shortened piece (gap - 8)],
          cutOff piece (gap - 8), rfl, isFree, .inr ⟨gap - 8, splits, rfl, rfl⟩, rfl, ?_, ?_, ?_,
          ?_, locatedKept.trans cutKept⟩
        · unfold cutOff
          dsimp only
          omega
        · rw [isTarget, ← multiple]
          congr 1
          omega
        · rw [if_pos isEmpty, sizeofHeader_bits64, guard_bind gapLeast, isCut, some_bind]
        · rwa [List.append_assoc]

/-- An aligned request is served by part of a free block, or nothing changes. -/
theorem tlsfMemalign_spec (rep : Rep pools control pieces lists []) (bounded : power < 64)
    (nonzero : size ≠ 0) (small : size < 2 ^ 32)
    (searchable : Searchable (alignedSize (2 ^ power) size)) :
    (control.tlsfMemalign (2 ^ power) size = some (control, 0) ∧
        NoneFits pieces (alignedSize (2 ^ power) size)) ∨
      ∃ new newLists before piece after lead target middle, pieces = before ++ piece :: after ∧
        piece.free = true ∧ LeadingCut piece target lead ∧
        Obtained 8 (adjustRequestSize .bits64 size 8) target middle ∧
        (target.ptr + 16) % 2 ^ power = 0 ∧
        control.tlsfMemalign (2 ^ power) size = some (new, target.ptr + 16) ∧
        Rep pools new ((before ++ lead) ++ (middle ++ after)) newLists [] ∧
        Kept (usedPieces (before ++ after)) control.memory new.memory := by
  obtain ⟨adjustAligned, least, _, adjustSmall⟩ := adjust_spec nonzero small
  rcases memalign_front rep bounded nonzero small searchable with isNone | ⟨cut, cutLists, before,
    piece, after, lead, target, isSplit, isFree, isCut, targetFree, holds, multiple, isPrepared,
    cutRep, cutKept⟩
  · exact .inl isNone
  · right
    obtain ⟨new, newLists, middle, isServed, newRep, obtained, newKept⟩ :=
      blockPrepareUsed_spec cutRep targetFree adjustAligned least (by omega) holds
    refine ⟨new, newLists, before, piece, after, lead, target, middle, isSplit, isFree, isCut,
      obtained, multiple, isPrepared.trans isServed, newRep, cutKept.trans (newKept.subset ?_)⟩
    rw [List.append_assoc]
    exact held_subset before lead after

end Control

end MallocSurvey.Tlsf
