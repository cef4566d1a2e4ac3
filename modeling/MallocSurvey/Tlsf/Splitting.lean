import MallocSurvey.Tlsf.Blocks

/-! # Splitting blocks -/

namespace MallocSurvey.Tlsf

open Library

namespace Control

variable {pools : List (Nat × Nat)} {control : Control} {before rest : List Piece}
  {piece next : Piece} {lists : Nat × Nat → List Nat} {loose : List Nat} {size : Nat}

/-- The first part of a block that is split. -/
def shortened (piece : Piece) (size : Nat) : Piece := { piece with len := size }

/-- The second part. -/
def cutOff (piece : Piece) (size : Nat) : Piece :=
  ⟨piece.ptr + (8 + size), piece.len - (size + 8), true⟩

/-- The block is large enough to be split. -/
structure Splits (piece : Piece) (size : Nat) : Prop where
  aligned : size % 8 = 0
  least : 24 ≤ size
  room : size + 32 ≤ piece.len

theorem Splits.refits (splits : Splits piece size) (aligned : piece.len % 8 = 0) :
    Refits [piece] [shortened piece size, cutOff piece size] := by
  obtain ⟨sizeAligned, least, room⟩ := splits
  refine ⟨List.cons_ne_nil _ _, ?_, ?_, ?_⟩
  · intro other member
    rw [List.mem_singleton.mp member]
    omega
  · intro other member
    rcases List.mem_cons.mp member with isFirst | isSecond
    · rw [isFirst]
      exact ⟨sizeAligned, least⟩
    · rw [List.mem_singleton.mp isSecond]
      unfold cutOff
      dsimp only
      omega
  · intro place tiles
    obtain ⟨isPlace, isStop⟩ := tiles
    unfold Tiles at isStop
    refine ⟨isPlace, ?_, ?_⟩
    · show piece.ptr + (8 + size) = place + (8 + size)
      rw [show piece.ptr = place from isPlace]
    · show place + (8 + size) + (8 + (piece.len - (size + 8))) = _
      omega

/-- Any word is the tag of some block. -/
theorem exists_flags (value : Nat) : ∃ free prevFree : Bool,
    value % 4 = free.toNat + 2 * prevFree.toNat := by
  have small := Nat.mod_lt value (show 0 < 4 by decide)
  generalize value % 4 = flags at small
  have all : ∀ flags < 4, ∃ free prevFree : Bool, flags = free.toNat + 2 * prevFree.toNat := by
    decide
  exact all flags small

/-- The headers after `block_split`. The flag of the second part that tells whether the
first one is free is not set. -/
theorem blockSplit_headers (rep : Rep pools control (before ++ piece :: next :: rest) lists loose)
    (splits : Splits piece size) :
    ∃ new prevFree, control.blockSplit piece.ptr size = some (new, (cutOff piece size).ptr) ∧
      SameTables control new ∧ Confined 8 [piece] next control.memory new.memory ∧
      new.field piece.ptr .size = (shortened piece size).tag (endFree false before) ∧
      new.field (cutOff piece size).ptr .size = (cutOff piece size).tag prevFree ∧
      new.field next.ptr .prevPhysBlock = (cutOff piece size).ptr ∧
      new.field next.ptr .size = next.tag true ∧
      Kept [shortened piece size] control.memory new.memory := by
  obtain ⟨sizeAligned, sizeLeast, room⟩ := splits
  obtain ⟨isNext, aligned, nonzero, lenAligned, least, small, fits⟩ :=
    rep.laid.next_bounds (show piece.len ≠ 0 by omega)
  have nextAligned : next.ptr % 8 = 0 := by omega
  have nextMod := rep.len_mod (show next ∈ _ by simp)
  have pieceMod := rep.len_mod (show piece ∈ _ by simp)
  have isPtr : (cutOff piece size).ptr = piece.ptr + (8 + size) := rfl
  have isLen : (cutOff piece size).len = piece.len - (size + 8) := rfl
  have cutAligned : (cutOff piece size).ptr % 8 = 0 := by omega
  have cutMod : (cutOff piece size).len % 4 = 0 := by omega
  obtain ⟨oldFree, prevFree, isFlags⟩ := exists_flags (control.field (cutOff piece size).ptr .size)
  have flagsSmall := Nat.mod_lt (control.field (cutOff piece size).ptr .size) (show 0 < 4 by decide)
  -- the second part before its flag is set
  let stale : Piece := ⟨(cutOff piece size).ptr, (cutOff piece size).len, oldFree⟩
  have staleMod : stale.len % 4 = 0 := cutMod
  -- the writes
  let sized := control.blockSetSize (cutOff piece size).ptr (cutOff piece size).len
  let short := sized.blockSetSize piece.ptr size
  let linked := short.setField next.ptr .prevPhysBlock (cutOff piece size).ptr
  let marked := linked.blockSetPrevFree next.ptr
  let new := marked.blockSetFree (cutOff piece size).ptr
  have sizedCut : sized.field (cutOff piece size).ptr .size = stale.tag prevFree := by
    rw [size_blockSetSize cutAligned (by omega), len_or_small cutMod flagsSmall, isFlags]
    exact (Nat.add_assoc _ _ _).symm
  have shortOwn : short.field piece.ptr .size =
      (shortened piece size).tag (endFree false before) := by
    have stays : sized.field piece.ptr .size = control.field piece.ptr .size :=
      field_setField_of_ne cutAligned aligned (by simp only [Field.offset]; omega)
    rw [size_blockSetSize aligned (by omega), stays, rep.tag_eq, len_or_flags pieceMod _ (by omega)]
    rfl
  have linkedCut : linked.field (cutOff piece size).ptr .size = stale.tag prevFree := by
    have stays : short.field (cutOff piece size).ptr .size =
        sized.field (cutOff piece size).ptr .size :=
      field_setField_of_ne aligned cutAligned (by simp only [Field.offset]; omega)
    have alsoStays : linked.field (cutOff piece size).ptr .size =
        short.field (cutOff piece size).ptr .size :=
      field_setField_of_ne nextAligned cutAligned (by simp only [Field.offset]; omega)
    rw [alsoStays, stays, sizedCut]
  have newCut : new.field (cutOff piece size).ptr .size = (cutOff piece size).tag prevFree := by
    have stays : marked.field (cutOff piece size).ptr .size =
        linked.field (cutOff piece size).ptr .size :=
      field_setField_of_ne nextAligned cutAligned (by simp only [Field.offset]; omega)
    rw [size_blockSetFree cutAligned, stays, linkedCut, tag_or_one staleMod]
    rfl
  have newOwn : new.field piece.ptr .size = (shortened piece size).tag (endFree false before) := by
    have first : linked.field piece.ptr .size = short.field piece.ptr .size :=
      field_setField_of_ne nextAligned aligned (by simp only [Field.offset]; omega)
    have second : marked.field piece.ptr .size = linked.field piece.ptr .size :=
      field_setField_of_ne nextAligned aligned (by simp only [Field.offset]; omega)
    have third : new.field piece.ptr .size = marked.field piece.ptr .size :=
      field_setField_of_ne cutAligned aligned (by simp only [Field.offset]; omega)
    rw [third, second, first, shortOwn]
  have newLink : new.field next.ptr .prevPhysBlock = (cutOff piece size).ptr := by
    have second : marked.field next.ptr .prevPhysBlock = linked.field next.ptr .prevPhysBlock :=
      field_setField_of_ne nextAligned nextAligned (by simp only [Field.offset]; omega)
    have third : new.field next.ptr .prevPhysBlock = marked.field next.ptr .prevPhysBlock :=
      field_setField_of_ne cutAligned nextAligned (by simp only [Field.offset]; omega)
    rw [third, second]
    exact (field_setField nextAligned nextAligned (by omega)).trans (if_pos rfl)
  have newNext : new.field next.ptr .size = next.tag true := by
    have first : sized.field next.ptr .size = control.field next.ptr .size :=
      field_setField_of_ne cutAligned nextAligned (by simp only [Field.offset]; omega)
    have second : short.field next.ptr .size = sized.field next.ptr .size :=
      field_setField_of_ne aligned nextAligned (by simp only [Field.offset]; omega)
    have third : linked.field next.ptr .size = short.field next.ptr .size :=
      field_setField_of_ne nextAligned nextAligned (by simp only [Field.offset]; omega)
    have last : new.field next.ptr .size = marked.field next.ptr .size :=
      field_setField_of_ne cutAligned nextAligned (by simp only [Field.offset]; omega)
    rw [last, size_blockSetPrevFree nextAligned, third, second, first, rep.next_tag,
      tag_or_two nextMod]
  have untouched : ∀ place, (place < piece.ptr + 8 ∨ piece.ptr + 16 ≤ place) →
      (place < (cutOff piece size).ptr + 8 ∨ (cutOff piece size).ptr + 16 ≤ place) →
      (place < next.ptr ∨ next.ptr + 16 ≤ place) → new.memory place = control.memory place := by
    intro place notOwn notCut notNext
    exact (setField_outside (by simp only [Field.offset]; omega)).trans
      ((setField_outside (by simp only [Field.offset]; omega)).trans
        ((setField_outside (by simp only [Field.offset]; omega)).trans
          ((setField_outside (by simp only [Field.offset]; omega)).trans
            (setField_outside (by simp only [Field.offset]; omega)))))
  refine ⟨new, prevFree, ?_, ⟨rfl, rfl, rfl, rfl⟩, ?_, newOwn, newCut, newLink, newNext, ?_⟩
  · have isRemaining : offsetToBlock (blockToPtr piece.ptr) (subWord .bits64 size 8) =
        (cutOff piece size).ptr := offsetToBlock_end (by omega)
    have plus : addWord .bits64 size 8 = size + 8 := addWord_of_lt (by omega)
    have remainSize : subWord .bits64 piece.len (size + 8) = (cutOff piece size).len :=
      subWord_of_le (by omega) (by omega)
    have onAlignment : blockToPtr (cutOff piece size).ptr =
        alignPtr (blockToPtr (cutOff piece size).ptr) (alignSize .bits64) := by
      rw [alignSize_bits64, blockToPtr_eq, alignPtr_eq (by omega) (by omega)]
    have sum : piece.len = addWord .bits64 (addWord .bits64 (cutOff piece size).len size) 8 := by
      have inner : addWord .bits64 (cutOff piece size).len size = (cutOff piece size).len + size :=
        addWord_of_lt (by omega)
      rw [inner, addWord_of_lt (by omega)]
      omega
    have largeEnough : blockSizeMin .bits64 ≤ sized.blockSize (cutOff piece size).ptr := by
      rw [blockSize, sizedCut, Piece.tag_len staleMod, blockSizeMin_bits64]
      show 24 ≤ piece.len - (size + 8)
      omega
    have cutSize : short.blockSize (cutOff piece size).ptr = (cutOff piece size).len := by
      have stays : short.field (cutOff piece size).ptr .size =
          sized.field (cutOff piece size).ptr .size :=
        field_setField_of_ne aligned cutAligned (by simp only [Field.offset]; omega)
      rw [blockSize, stays, sizedCut]
      exact Piece.tag_len staleMod _
    have notLast : ¬ short.blockIsLast (cutOff piece size).ptr := by
      rw [blockIsLast, cutSize, decide_eq_true_eq]
      omega
    have ends : (cutOff piece size).ptr + (8 + (cutOff piece size).len) = next.ptr := by omega
    unfold blockSplit
    rw [blockHeaderOverhead_bits64]
    dsimp only
    rw [isRemaining, rep.blockSize (by simp), plus, remainSize, guard_bind onAlignment,
      guard_bind sum, guard_bind largeEnough]
    unfold blockMarkAsFree blockLinkNext blockNext
    rw [guard_bind notLast, cutSize, blockHeaderOverhead_bits64, offsetToBlock_end (by omega), ends]
    rfl
  · intro place outside notTag
    have notOwned := outside piece (List.mem_singleton_self _)
    unfold Owns at notOwned
    exact untouched place (by omega) (by omega) (by omega)
  · intro other member place low high
    rw [List.mem_singleton.mp member] at low high
    simp only [shortened] at low high
    exact untouched place (by omega) (by omega) (by omega)

/-! ## Trimming -/

/-- A block is split when the flags of the second part are set. -/
structure IsSplit (before : List Piece) (piece next : Piece) (size : Nat) (old new : Control) :
    Prop where
  same : SameTables old new
  confined : Confined 8 [piece] next old.memory new.memory
  own : new.field piece.ptr .size = (shortened piece size).tag (endFree false before)
  link : piece.free = true → new.field (cutOff piece size).ptr .prevPhysBlock = piece.ptr
  cut : new.field (cutOff piece size).ptr .size = (cutOff piece size).tag piece.free
  nextLink : new.field next.ptr .prevPhysBlock = (cutOff piece size).ptr
  nextTag : new.field next.ptr .size = next.tag true

theorem IsSplit.rep {new : Control}
    (isSplit : IsSplit before piece next size control new)
    (rep : Rep pools control (before ++ piece :: next :: rest) lists loose)
    (splits : Splits piece size) (isLoose : piece.free = true → piece.ptr ∈ loose) :
    Rep pools new (before ++ shortened piece size :: cutOff piece size :: next :: rest) lists
        ((cutOff piece size).ptr :: loose) ∧
      Kept (before ++ next :: rest) control.memory new.memory := by
  have room := splits.room
  obtain ⟨isNext, _, _, lenAligned, _, _, _⟩ :=
    rep.laid.next_bounds (show piece.len ≠ 0 by omega)
  have refits := splits.refits lenAligned
  have laid : Laid pools control.address
      (before ++ shortened piece size :: cutOff piece size :: next :: rest) := by
    have whole : Laid pools control.address (before ++ ([piece] ++ next :: rest)) := rep.laid
    exact whole.replace refits
  have ownLink : piece.free = true →
      loadPointer new.memory (piece.ptr + 8 + size) = piece.ptr := by
    intro isFree
    rw [Nat.add_assoc]
    exact isSplit.link isFree
  have cutLink : loadPointer new.memory
      ((cutOff piece size).ptr + 8 + (cutOff piece size).len) = (cutOff piece size).ptr := by
    rw [show (cutOff piece size).ptr + 8 + (cutOff piece size).len = next.ptr by
      simp only [cutOff]; omega]
    exact isSplit.nextLink
  have unlisted : ∀ other ∈ [piece], other.free = true → other.ptr ∈ loose := by
    intro other member isFree
    rw [List.mem_singleton.mp member] at isFree ⊢
    exact isLoose isFree
  have newUnlisted : ∀ other ∈ [shortened piece size, cutOff piece size], other.free = true →
      other.ptr ∈ (cutOff piece size).ptr :: loose := by
    intro other member isFree
    rcases List.mem_cons.mp member with isFirst | isSecond
    · rw [isFirst] at isFree ⊢
      exact List.mem_cons_of_mem _ (isLoose isFree)
    · rw [List.mem_singleton.mp isSecond]
      exact List.mem_cons_self
  have sameLoose : ∀ other ∈ before ++ next :: rest,
      other.ptr ∈ (cutOff piece size).ptr :: loose ↔ other.ptr ∈ loose := by
    intro other member
    simp [ptr_ne_second laid member]
  have replaced := refits.rep rep ((cutOff piece size).ptr :: loose) isSplit.confined
    ⟨isSplit.own, ownLink, isSplit.cut, fun _ => cutLink, trivial⟩ isSplit.nextTag unlisted
    newUnlisted sameLoose
  rwa [isSplit.same.eq] at replaced

theorem blockCanSplit_iff (rep : Rep pools control (before ++ piece :: next :: rest) lists loose)
    (small : size < 2 ^ 63) :
    control.blockCanSplit piece.ptr size = true ↔ size + 32 ≤ piece.len := by
  unfold blockCanSplit
  rw [rep.blockSize (by simp), sizeofHeader_bits64, addWord_of_lt (by omega), decide_eq_true_eq,
    Nat.add_comm]

/-- A block that is trimmed is one block still or has been split in two. -/
def Trimmed (piece : Piece) (size : Nat) (middle : List Piece) : Prop :=
  piece.len < size + 32 ∧ middle = [piece] ∨
    size + 32 ≤ piece.len ∧ middle = [shortened piece size, cutOff piece size]

/-- The held blocks are not free. -/
theorem held_subset (before middle rest : List Piece) : ∀ other ∈ usedPieces (before ++ rest),
    other ∈ usedPieces (before ++ (middle ++ rest)) := by
  intro other member
  rw [usedPieces_append, usedPieces_append] at *
  rcases List.mem_append.mp member with inBefore | inRest
  · exact List.mem_append_left _ inBefore
  · exact List.mem_append_right _ (List.mem_append_right _ inRest)

theorem used_subset : ∀ other ∈ usedPieces before, other ∈ before :=
  fun _ member => List.mem_of_mem_filter member

/-- The first part of a split block is linked from the second one, whose flag is set. -/
def linkParts (control : Control) (block cut : Nat) : Control :=
  (control.setField cut .prevPhysBlock block).blockSetPrevFree cut

theorem linkParts_comm {block cut : Nat} (aligned : cut % 8 = 0) :
    (control.blockSetPrevFree cut).setField cut .prevPhysBlock block =
      control.linkParts block cut := by
  have stays : (control.setField cut .prevPhysBlock block).field cut .size =
      control.field cut .size :=
    field_setField_of_ne aligned aligned (by simp only [Field.offset]; omega)
  have isLinked : control.linkParts block cut =
      (control.setField cut .prevPhysBlock block).setField cut .size
        (control.field cut .size ||| 2) := by
    rw [linkParts, blockSetPrevFree, stays]
  rw [isLinked, blockSetPrevFree]
  unfold setField
  congr 1
  exact storeBytes_comm (by unfold Apart; simp only [Field.offset]; omega)

/-- What `block_split` returns is complete once the parts are linked. -/
theorem linkParts_isSplit (rep : Rep pools control (before ++ piece :: next :: rest) lists loose)
    (splits : Splits piece size) (isFree : piece.free = true) :
    ∃ new, control.blockSplit piece.ptr size = some (new, (cutOff piece size).ptr) ∧
      new.blockSize piece.ptr = size ∧
      IsSplit before piece next size control (new.linkParts piece.ptr (cutOff piece size).ptr) := by
  obtain ⟨sizeAligned, sizeLeast, room⟩ := id splits
  obtain ⟨isNext, ptrAligned, nonzero, lenAligned, _, lenSmall, fits⟩ :=
    rep.laid.next_bounds (show piece.len ≠ 0 by omega)
  have isPtr : (cutOff piece size).ptr = piece.ptr + (8 + size) := rfl
  have cutAligned : (cutOff piece size).ptr % 8 = 0 := by omega
  have nextAligned : next.ptr % 8 = 0 := by omega
  have cutMod : (cutOff piece size).len % 4 = 0 := by
    unfold cutOff
    dsimp only
    omega
  have shortMod : (shortened piece size).len % 4 = 0 := by
    unfold shortened
    dsimp only
    omega
  obtain ⟨split, prevFree, isSplit, same, confined, own, cut, nextLink, nextTag, _⟩ :=
    blockSplit_headers rep splits
  let linked := split.setField (cutOff piece size).ptr .prevPhysBlock piece.ptr
  have others : ∀ other name, other % 8 = 0 →
      other + Field.offset name ≠ (cutOff piece size).ptr →
      other + Field.offset name ≠ (cutOff piece size).ptr + 8 →
      (split.linkParts piece.ptr (cutOff piece size).ptr).field other name =
        split.field other name := by
    intro other name aligned notLink notTag
    exact (field_setField_of_ne cutAligned aligned notTag).trans
      (field_setField_of_ne cutAligned aligned notLink)
  refine ⟨split, isSplit, ?_, same.trans ⟨rfl, rfl, rfl, rfl⟩, ?_, ?_, ?_, ?_, ?_, ?_⟩
  · rw [blockSize, own, Piece.tag_len shortMod, shortened]
  · intro place outside notTag
    have notOwned := outside piece (List.mem_singleton_self _)
    unfold Owns at notOwned
    exact (setField_outside (by simp only [Field.offset]; omega)).trans
      ((setField_outside (by simp only [Field.offset]; omega)).trans
        (confined place outside notTag))
  · rw [others _ _ ptrAligned (by simp only [Field.offset]; omega)
      (by simp only [Field.offset]; omega), own]
  · intro _
    have stays : (split.linkParts piece.ptr (cutOff piece size).ptr).field
        (cutOff piece size).ptr .prevPhysBlock =
          linked.field (cutOff piece size).ptr .prevPhysBlock :=
      field_setField_of_ne cutAligned cutAligned (by simp only [Field.offset]; omega)
    rw [stays]
    exact (field_setField cutAligned cutAligned (by omega)).trans (if_pos rfl)
  · have stays : linked.field (cutOff piece size).ptr .size =
        split.field (cutOff piece size).ptr .size :=
      field_setField_of_ne cutAligned cutAligned (by simp only [Field.offset]; omega)
    unfold linkParts
    rw [size_blockSetPrevFree cutAligned, stays, cut, tag_or_two cutMod, isFree]
  · rw [others _ _ nextAligned (by simp only [Field.offset]; omega)
      (by simp only [Field.offset]; omega), nextLink]
  · rw [others _ _ nextAligned (by simp only [Field.offset]; omega)
      (by simp only [Field.offset]; omega), nextTag]

/-- The block is linked from the second part. -/
theorem blockLinkNext_cut {block : Nat} (isSize : control.blockSize block = size)
    (nonzero : size ≠ 0) (fits : block + 16 + size < 2 ^ 64) :
    control.blockLinkNext block =
      some (control.setField (block + (8 + size)) .prevPhysBlock block, block + (8 + size)) := by
  have notLast : ¬ control.blockIsLast block := by
    rw [blockIsLast, isSize, decide_eq_true_eq]
    exact nonzero
  unfold blockLinkNext blockNext
  rw [guard_bind notLast, isSize, blockHeaderOverhead_bits64, offsetToBlock_end fits]
  rfl

/-- The rest of a loose block is cut off and listed. -/
theorem blockTrimFree_spec
    (rep : Rep pools control (before ++ piece :: next :: rest) lists [piece.ptr])
    (isFree : piece.free = true) (aligned : size % 8 = 0) (least : 24 ≤ size)
    (small : size < 2 ^ 63) :
    ∃ new newLists middle, control.blockTrimFree piece.ptr size = some new ∧
      Rep pools new (before ++ (middle ++ next :: rest)) newLists [piece.ptr] ∧
      Trimmed piece size middle ∧
      Kept (usedPieces (before ++ next :: rest)) control.memory new.memory := by
  have isFreeBlock : control.blockIsFree piece.ptr = true := by
    rw [rep.blockIsFree (by simp), isFree]
  have canSplit := blockCanSplit_iff rep small
  unfold blockTrimFree
  rw [guard_bind isFreeBlock]
  by_cases room : size + 32 ≤ piece.len
  · have splits : Splits piece size := ⟨aligned, least, room⟩
    have bounds := rep.laid.piece_bounds (show piece ∈ _ by simp)
    obtain ⟨split, isSplit, ownSize, complete⟩ := linkParts_isSplit rep splits isFree
    obtain ⟨splitRep, splitKept⟩ := complete.rep rep splits fun _ => List.mem_singleton_self _
    have notLoose : (cutOff piece size).ptr ∉ [piece.ptr] := by
      rw [List.mem_singleton, cutOff]
      dsimp only
      omega
    obtain ⟨new, newLists, isInserted, newRep, newKept⟩ :=
      blockInsert_spec splitRep (by simp) rfl notLoose
    have held := held_subset before [shortened piece size, cutOff piece size] (next :: rest)
    refine ⟨new, newLists, [shortened piece size, cutOff piece size], ?_, newRep, .inr ⟨room, rfl⟩,
      (splitKept.subset used_subset).trans (newKept.subset held)⟩
    rw [if_pos (canSplit.mpr room), isSplit, some_bind]
    dsimp only
    rw [blockLinkNext_cut ownSize (by omega) (by omega), some_bind]
    exact isInserted
  · refine ⟨control, lists, [piece], ?_, rep, .inl ⟨by omega, rfl⟩, Kept.refl _ _⟩
    rw [if_neg (fun can => room (canSplit.mp can))]
    rfl

end Control

end MallocSurvey.Tlsf
