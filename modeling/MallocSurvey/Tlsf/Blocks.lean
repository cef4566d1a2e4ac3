import MallocSurvey.Tlsf.FreeLists

/-! # Rewriting headers

Marking, splitting and joining change some neighbouring blocks and the tag of the next
one. -/

namespace MallocSurvey.Tlsf

open Library

variable {pools : List (Nat × Nat)} {address : Nat} {control : Control}
  {pieces before middle other rest : List Piece} {piece next left right : Piece}
  {lists : Nat × Nat → List Nat} {loose newLoose : List Nat}

/-! ## Replacing blocks -/

/-- Blocks of the same extent take the place of others. -/
structure Refits (middle other : List Piece) : Prop where
  nonempty : middle ≠ []
  noSentinel : ∀ piece ∈ middle, piece.len ≠ 0
  sizes : ∀ piece ∈ other, piece.len % 8 = 0 ∧ 24 ≤ piece.len
  tiles : ∀ place, Tiles id 8 place middle (place + covered 8 middle) →
    Tiles id 8 place other (place + covered 8 middle)

theorem Laid.replace (laid : Laid pools address (before ++ (middle ++ rest)))
    (refits : Refits middle other) : Laid pools address (before ++ (other ++ rest)) :=
  { laid with
    pooled := by
      refine laid.pooled.replace refits.nonempty refits.noSentinel ?_ refits.tiles
      intro piece member
      have size := (refits.sizes piece member).2
      omega
    sizes := by
      intro piece member
      rcases List.mem_append.mp member with inBefore | member
      · exact laid.sizes piece (List.mem_append_left _ inBefore)
      · rcases List.mem_append.mp member with inOther | inRest
        · obtain ⟨aligned, least⟩ := refits.sizes piece inOther
          exact ⟨aligned, fun _ => least⟩
        · exact laid.sizes piece (by simp [inRest]) }

/-- The tag of the next block. -/
theorem Rep.next_tag (rep : Rep pools control (before ++ piece :: next :: rest) lists loose) :
    control.field next.ptr .size = next.tag piece.free := by
  have tagged := rep.tagged
  rw [show before ++ piece :: next :: rest = (before ++ [piece]) ++ next :: rest by simp] at tagged
  have isTag := tagged.tag_eq
  rwa [endFree_concat] at isTag

theorem Refits.rep (refits : Refits middle other)
    (rep : Rep pools control (before ++ (middle ++ next :: rest)) lists loose)
    (newLoose : List Nat) {newMemory : Memory}
    (confined : Confined 8 middle next control.memory newMemory)
    (otherTagged : Tagged 8 newMemory (endFree false before) other)
    (nextTag : loadPointer newMemory (next.ptr + 8) =
      next.tag (endFree (endFree false before) other))
    (unlisted : ∀ piece ∈ middle, piece.free = true → piece.ptr ∈ loose)
    (newUnlisted : ∀ piece ∈ other, piece.free = true → piece.ptr ∈ newLoose)
    (sameLoose : ∀ piece ∈ before ++ next :: rest, piece.ptr ∈ newLoose ↔ piece.ptr ∈ loose) :
    Rep pools { control with memory := newMemory } (before ++ (other ++ next :: rest)) lists
        newLoose ∧
      Kept (before ++ next :: rest) control.memory newMemory := by
  have tiles := rep.laid.tiles
  have content : ∀ piece ∈ before ++ next :: rest, piece.free = true → ∀ place,
      piece.ptr + 16 ≤ place → place < piece.ptr + 32 → newMemory place = control.memory place := by
    intro piece member isFree place low high
    have inPieces : piece ∈ before ++ (middle ++ next :: rest) := by
      rcases List.mem_append.mp member with inBefore | inRest
      · exact List.mem_append_left _ inBefore
      · exact List.mem_append_right _ (List.mem_append_right _ inRest)
    have least := rep.laid.free_len inPieces isFree
    exact Confined.same_content tiles confined (by decide) member ⟨by omega, by omega⟩ low
  have stays : ∀ {index node}, node ∈ lists index → ∃ piece ∈ before ++ next :: rest,
      piece.ptr = node ∧ piece.free = true ∧ node ∉ loose ∧ classOf piece.len = index := by
    intro index node isListed
    obtain ⟨piece, member, isPtr, isFree, notLoose, isClass⟩ := (rep.listed index node).mp isListed
    refine ⟨piece, ?_, isPtr, isFree, notLoose, isClass⟩
    rcases List.mem_append.mp member with inBefore | member
    · exact List.mem_append_left _ inBefore
    · rcases List.mem_append.mp member with inMiddle | inRest
      · exact absurd (isPtr ▸ unlisted piece inMiddle isFree) notLoose
      · exact List.mem_append_right _ inRest
  have sameField : ∀ {index node}, node ∈ lists index → ∀ name : Field, 16 ≤ name.offset →
      ({ control with memory := newMemory } : Control).field node name = control.field node name := by
    intro index node isListed name large
    obtain ⟨piece, member, isPtr, isFree, _⟩ := stays isListed
    have bound : name.offset + 8 ≤ 32 := by cases name <;> decide
    apply loadPointer_congr
    intro place low high
    exact content piece member isFree place (by omega) (by omega)
  refine ⟨⟨rep.laid.replace refits, ?_, ?_, rep.marked, ?_⟩, ?_⟩
  · refine Tagged.replace tiles confined (by decide) rep.tagged ?_ otherTagged nextTag
    intro isFree
    have least := rep.laid.free_len (show next ∈ _ by simp) isFree
    omega
  · apply rep.segregated.congr
    · exact fun index node isListed => sameField isListed .nextFree (by decide)
    · exact fun index node isListed => sameField isListed .prevFree (by decide)
  · intro index node
    constructor
    · intro isListed
      obtain ⟨piece, member, isPtr, isFree, notLoose, isClass⟩ := stays isListed
      refine ⟨piece, ?_, isPtr, isFree, ?_, isClass⟩
      · rcases List.mem_append.mp member with inBefore | inRest
        · exact List.mem_append_left _ inBefore
        · exact List.mem_append_right _ (List.mem_append_right _ inRest)
      · rw [← isPtr, sameLoose piece member, isPtr]
        exact notLoose
    · rintro ⟨piece, member, isPtr, isFree, notLoose, isClass⟩
      have outside : piece ∈ before ++ next :: rest := by
        rcases List.mem_append.mp member with inBefore | member
        · exact List.mem_append_left _ inBefore
        · rcases List.mem_append.mp member with inOther | inRest
          · exact absurd (isPtr ▸ newUnlisted piece inOther isFree) notLoose
          · exact List.mem_append_right _ inRest
      refine (rep.listed index node).mpr ⟨piece, ?_, isPtr, isFree, ?_, isClass⟩
      · rcases List.mem_append.mp outside with inBefore | inRest
        · exact List.mem_append_left _ inBefore
        · exact List.mem_append_right _ (List.mem_append_right _ inRest)
      · rw [← isPtr, ← sameLoose piece outside, isPtr]
        exact notLoose
  · exact Confined.kept tiles confined (by decide)

/-- Facts about a block and the next one. -/
theorem Laid.next_bounds (laid : Laid pools address (before ++ piece :: next :: rest))
    (notSentinel : piece.len ≠ 0) :
    next.ptr = piece.ptr + (8 + piece.len) ∧ piece.ptr % 8 = 0 ∧ 0 < piece.ptr ∧
      piece.len % 8 = 0 ∧ 24 ≤ piece.len ∧ piece.len < 2 ^ 32 ∧ next.ptr + 16 ≤ 2 ^ 64 := by
  obtain ⟨aligned, nonzero, lenAligned, small, _, bounds⟩ := laid.piece_bounds (show piece ∈ _ by simp)
  obtain ⟨least, fits⟩ := bounds notSentinel
  obtain ⟨_, _, isNext, isPtr⟩ := laid.pooled.next notSentinel
  cases isNext
  exact ⟨isPtr, aligned, nonzero, lenAligned, least, small, by omega⟩

theorem Laid.ptr_ne_single (laid : Laid pools address (before ++ piece :: rest))
    (member : left ∈ before ++ rest) : left.ptr ≠ piece.ptr := by
  have nodup := laid.ptr_nodup
  rw [List.map_append, List.map_cons, List.nodup_middle, List.nodup_cons] at nodup
  intro same
  apply nodup.1
  rw [← List.map_append, ← same]
  exact List.mem_map_of_mem member

theorem Control.SameTables.eq {new : Control} (same : Control.SameTables control new) :
    { control with memory := new.memory } = new := by
  obtain ⟨sameAddress, sameFl, sameSl, sameBlocks⟩ := same
  cases new
  simp only at sameAddress sameFl sameSl sameBlocks
  rw [sameAddress, sameFl, sameSl, sameBlocks]

/-- One block takes the place of another. -/
theorem Refits.single {newPiece : Piece} (notSentinel : piece.len ≠ 0)
    (sameExtent : newPiece.extent = piece.extent) (aligned : piece.len % 8 = 0)
    (least : 24 ≤ piece.len) : Refits [piece] [newPiece] := by
  obtain ⟨samePtr, sameLen⟩ := Prod.mk.inj sameExtent
  refine ⟨List.cons_ne_nil _ _, ?_, ?_, ?_⟩
  · intro other member
    exact List.mem_singleton.mp member ▸ notSentinel
  · intro other member
    rw [List.mem_singleton.mp member, sameLen]
    exact ⟨aligned, least⟩
  · intro place tiles
    refine ⟨samePtr.trans tiles.1, ?_⟩
    rw [sameLen]
    exact tiles.2

namespace Control

/-! ## Setting the size and the flags -/

section Setters

variable {block size : Nat} (aligned : block % 8 = 0)

include aligned

theorem size_blockSetFree :
    (control.blockSetFree block).field block .size = control.field block .size ||| 1 := by
  have fits := Nat.or_lt_two_pow (control.field_lt block .size) (show 1 < 2 ^ 64 by decide)
  exact (field_setField aligned aligned fits).trans (if_pos rfl)

theorem size_blockSetPrevFree :
    (control.blockSetPrevFree block).field block .size = control.field block .size ||| 2 := by
  have fits := Nat.or_lt_two_pow (control.field_lt block .size) (show 2 < 2 ^ 64 by decide)
  exact (field_setField aligned aligned fits).trans (if_pos rfl)

theorem size_blockSetUsed :
    (control.blockSetUsed block).field block .size = control.field block .size / 2 * 2 := by
  have fits := control.field_lt block .size
  exact (field_setField aligned aligned (by omega)).trans (if_pos rfl)

theorem size_blockSetPrevUsed : (control.blockSetPrevUsed block).field block .size =
    control.field block .size / 4 * 4 + control.field block .size % 2 := by
  have fits := control.field_lt block .size
  exact (field_setField aligned aligned (by omega)).trans (if_pos rfl)

theorem size_blockSetSize (fits : size < 2 ^ 64) :
    (control.blockSetSize block size).field block .size =
      size ||| control.field block .size % 4 := by
  have flags := Nat.mod_lt (control.field block .size) (show 0 < 4 by decide)
  have joined := Nat.or_lt_two_pow fits (flags.trans (show 4 < 2 ^ 64 by decide))
  exact (field_setField aligned aligned joined).trans (if_pos rfl)

end Setters

/-! ## Marking -/

/-- A used block becomes free and loose. -/
theorem blockMarkAsFree_spec
    (rep : Rep pools control (before ++ piece :: next :: rest) lists loose)
    (isUsed : piece.free = false) (notSentinel : piece.len ≠ 0) :
    ∃ new, control.blockMarkAsFree piece.ptr = some new ∧
      Rep pools new (before ++ piece.freed :: next :: rest) lists (piece.ptr :: loose) ∧
      Kept (before ++ next :: rest) control.memory new.memory := by
  obtain ⟨isNext, aligned, _, lenAligned, least, small, fits⟩ := rep.laid.next_bounds notSentinel
  have nextAligned : next.ptr % 8 = 0 := by omega
  have nextMod := rep.len_mod (show next ∈ _ by simp)
  have pieceMod := rep.len_mod (show piece ∈ _ by simp)
  have nextTag := rep.next_tag
  rw [isUsed] at nextTag
  -- the three writes
  let linked := control.setField next.ptr .prevPhysBlock piece.ptr
  let marked := linked.blockSetPrevFree next.ptr
  let new := marked.blockSetFree piece.ptr
  have isMarked : control.blockMarkAsFree piece.ptr = some new := by
    unfold blockMarkAsFree blockLinkNext
    rw [rep.blockNext (by simp) notSentinel, ← isNext]
    rfl
  have newOwn : new.field piece.ptr .size = piece.freed.tag (endFree false before) := by
    have linkedOwn : linked.field piece.ptr .size = control.field piece.ptr .size :=
      field_setField_of_ne nextAligned aligned (by simp only [Field.offset]; omega)
    have markedOwn : marked.field piece.ptr .size = linked.field piece.ptr .size :=
      field_setField_of_ne nextAligned aligned (by simp only [Field.offset]; omega)
    rw [size_blockSetFree aligned, markedOwn, linkedOwn, rep.tag_eq, tag_or_one pieceMod]
  have newNext : new.field next.ptr .size = next.tag true := by
    have linkedNext : linked.field next.ptr .size = control.field next.ptr .size :=
      field_setField_of_ne nextAligned nextAligned (by simp only [Field.offset]; omega)
    have stays : new.field next.ptr .size = marked.field next.ptr .size :=
      field_setField_of_ne aligned nextAligned (by simp only [Field.offset]; omega)
    rw [stays, size_blockSetPrevFree nextAligned, linkedNext, nextTag, tag_or_two nextMod]
  have newLink : new.field next.ptr .prevPhysBlock = piece.ptr := by
    have stays : new.field next.ptr .prevPhysBlock = marked.field next.ptr .prevPhysBlock :=
      field_setField_of_ne aligned nextAligned (by simp only [Field.offset]; omega)
    have before : marked.field next.ptr .prevPhysBlock = linked.field next.ptr .prevPhysBlock :=
      field_setField_of_ne nextAligned nextAligned (by simp only [Field.offset]; omega)
    rw [stays, before]
    exact (field_setField nextAligned nextAligned (by omega)).trans (if_pos rfl)
  have confined : Confined 8 [piece] next control.memory new.memory := by
    intro place outside notTag
    have notOwned := outside piece (List.mem_singleton_self _)
    unfold Owns at notOwned
    refine (setField_outside (by simp only [Field.offset]; omega)).trans
      ((setField_outside (by simp only [Field.offset]; omega)).trans
        (setField_outside (by simp only [Field.offset]; omega)))
  have same : SameTables control new := ⟨rfl, rfl, rfl, rfl⟩
  have refits : Refits [piece] [piece.freed] := .single notSentinel rfl lenAligned least
  have link : loadPointer new.memory (piece.freed.ptr + 8 + piece.freed.len) = piece.ptr := by
    rw [show piece.freed.ptr + 8 + piece.freed.len = next.ptr by simp only [Piece.freed]; omega]
    exact newLink
  have unlisted : ∀ other ∈ [piece], other.free = true → other.ptr ∈ loose := by
    intro other member isFree
    rw [List.mem_singleton.mp member, isUsed] at isFree
    cases isFree
  have newUnlisted : ∀ other ∈ [piece.freed], other.free = true → other.ptr ∈ piece.ptr :: loose := by
    intro other member _
    rw [List.mem_singleton.mp member]
    exact List.mem_cons_self
  have sameLoose : ∀ other ∈ before ++ next :: rest,
      other.ptr ∈ piece.ptr :: loose ↔ other.ptr ∈ loose := by
    intro other member
    have different := rep.laid.ptr_ne_single member
    rw [List.mem_cons]
    simp [different]
  have replaced := refits.rep rep (piece.ptr :: loose) confined ⟨newOwn, fun _ => link, trivial⟩
    newNext unlisted newUnlisted sameLoose
  rw [same.eq] at replaced
  exact ⟨new, isMarked, replaced⟩

/-- A loose block becomes used. -/
theorem blockMarkAsUsed_spec
    (rep : Rep pools control (before ++ piece :: next :: rest) lists (piece.ptr :: loose))
    (isFree : piece.free = true) (notLoose : piece.ptr ∉ loose) :
    ∃ new, control.blockMarkAsUsed piece.ptr = some new ∧
      Rep pools new (before ++ piece.used :: next :: rest) lists loose ∧
      Kept (before ++ next :: rest) control.memory new.memory := by
  have notSentinel := rep.laid.pooled.len_ne (by simp) isFree
  obtain ⟨isNext, aligned, _, lenAligned, least, small, fits⟩ := rep.laid.next_bounds notSentinel
  have nextAligned : next.ptr % 8 = 0 := by omega
  have nextMod := rep.len_mod (show next ∈ _ by simp)
  have pieceMod := rep.len_mod (show piece ∈ _ by simp)
  have nextTag := rep.next_tag
  let marked := control.blockSetPrevUsed next.ptr
  let new := marked.blockSetUsed piece.ptr
  have isMarked : control.blockMarkAsUsed piece.ptr = some new := by
    unfold blockMarkAsUsed
    rw [rep.blockNext (by simp) notSentinel, ← isNext]
    rfl
  have newOwn : new.field piece.ptr .size = piece.used.tag (endFree false before) := by
    have markedOwn : marked.field piece.ptr .size = control.field piece.ptr .size :=
      field_setField_of_ne nextAligned aligned (by simp only [Field.offset]; omega)
    rw [size_blockSetUsed aligned, markedOwn, rep.tag_eq, tag_used pieceMod]
  have newNext : new.field next.ptr .size = next.tag false := by
    have stays : new.field next.ptr .size = marked.field next.ptr .size :=
      field_setField_of_ne aligned nextAligned (by simp only [Field.offset]; omega)
    rw [stays, size_blockSetPrevUsed nextAligned, nextTag, tag_prevUsed nextMod]
  have confined : Confined 8 [piece] next control.memory new.memory := by
    intro place outside notTag
    have notOwned := outside piece (List.mem_singleton_self _)
    unfold Owns at notOwned
    exact (setField_outside (by simp only [Field.offset]; omega)).trans
      (setField_outside (by simp only [Field.offset]; omega))
  have same : SameTables control new := ⟨rfl, rfl, rfl, rfl⟩
  have refits : Refits [piece] [piece.used] := .single notSentinel rfl lenAligned least
  have unlisted : ∀ other ∈ [piece], other.free = true → other.ptr ∈ piece.ptr :: loose := by
    intro other member _
    rw [List.mem_singleton.mp member]
    exact List.mem_cons_self
  have newUnlisted : ∀ other ∈ [piece.used], other.free = true → other.ptr ∈ loose := by
    intro other member otherFree
    rw [List.mem_singleton.mp member] at otherFree
    cases otherFree
  have sameLoose : ∀ other ∈ before ++ next :: rest,
      other.ptr ∈ loose ↔ other.ptr ∈ piece.ptr :: loose := by
    intro other member
    have different := rep.laid.ptr_ne_single member
    rw [List.mem_cons]
    simp [different]
  have tagged : Tagged 8 new.memory (endFree false before) [piece.used] :=
    ⟨newOwn, fun isFree => absurd isFree Bool.false_ne_true, trivial⟩
  have replaced := refits.rep rep loose confined tagged newNext unlisted newUnlisted sameLoose
  rw [same.eq] at replaced
  exact ⟨new, isMarked, replaced⟩

/-! ## Joining -/

/-- The block made of two adjacent ones, with the flag of the first one. -/
def absorbed (left right : Piece) : Piece := ⟨left.ptr, left.len + (8 + right.len), left.free⟩

theorem refits_join (leftSize : left.len % 8 = 0 ∧ 24 ≤ left.len)
    (rightSize : right.len % 8 = 0 ∧ 24 ≤ right.len) : Refits [left, right] [absorbed left right] := by
  refine ⟨List.cons_ne_nil _ _, ?_, ?_, ?_⟩
  · intro other member
    rcases List.mem_cons.mp member with isLeft | isRight
    · rw [isLeft]
      omega
    · rw [List.mem_singleton.mp isRight]
      omega
  · intro other member
    rw [List.mem_singleton.mp member]
    unfold absorbed
    dsimp only
    omega
  · intro place tiles
    refine ⟨tiles.1, ?_⟩
    have isStop := tiles.2.2
    unfold Tiles at isStop ⊢
    unfold absorbed
    dsimp only
    omega

/-- Facts about two adjacent blocks and the next one. -/
theorem pair_bounds (laid : Laid pools address (before ++ left :: right :: next :: rest))
    (leftNot : left.len ≠ 0) (rightNot : right.len ≠ 0) :
    right.ptr = left.ptr + (8 + left.len) ∧ next.ptr = right.ptr + (8 + right.len) ∧
      left.ptr % 8 = 0 ∧ 0 < left.ptr ∧ (left.len % 8 = 0 ∧ 24 ≤ left.len) ∧
      (right.len % 8 = 0 ∧ 24 ≤ right.len) ∧ left.len + (8 + right.len) < 2 ^ 32 ∧
      next.ptr + 16 ≤ 2 ^ 64 := by
  obtain ⟨isRight, aligned, nonzero, leftAligned, leftLeast, _, _⟩ := laid.next_bounds leftNot
  have shifted := laid
  rw [show before ++ left :: right :: next :: rest =
    (before ++ [left]) ++ right :: next :: rest by simp] at shifted
  obtain ⟨isNext, _, _, rightAligned, rightLeast, _, fits⟩ := shifted.next_bounds rightNot
  -- the joined block is in the pool as well
  have joined := laid.replace (refits_join ⟨leftAligned, leftLeast⟩ ⟨rightAligned, rightLeast⟩)
  have small := (joined.piece_bounds (show absorbed left right ∈ _ by simp)).2.2.2.1
  exact ⟨isRight, isNext, aligned, nonzero, ⟨leftAligned, leftLeast⟩, ⟨rightAligned, rightLeast⟩,
    small, fits⟩

theorem ptr_ne_second (laid : Laid pools address (before ++ left :: right :: next :: rest))
    {piece : Piece} (member : piece ∈ before ++ next :: rest) : piece.ptr ≠ right.ptr := by
  rw [show before ++ left :: right :: next :: rest =
    (before ++ [left]) ++ right :: next :: rest by simp] at laid
  apply laid.ptr_ne_single
  rcases List.mem_append.mp member with inBefore | inRest
  · simp [inBefore]
  · exact List.mem_append_right _ inRest

/-- The headers after `block_absorb`. -/
theorem blockAbsorb_headers
    (rep : Rep pools control (before ++ left :: right :: next :: rest) lists loose)
    (leftNot : left.len ≠ 0) (rightNot : right.len ≠ 0) :
    ∃ new, control.blockAbsorb left.ptr right.ptr = some new ∧ SameTables control new ∧
      Confined 8 [left, right] next control.memory new.memory ∧
      new.field left.ptr .size = (absorbed left right).tag (endFree false before) ∧
      new.field next.ptr .prevPhysBlock = left.ptr ∧
      new.field next.ptr .size = next.tag right.free ∧ Kept [left] control.memory new.memory := by
  obtain ⟨isRight, isNext, aligned, _, leftSize, rightSize, small, fits⟩ :=
    pair_bounds rep.laid leftNot rightNot
  have rightAligned : right.ptr % 8 = 0 := by omega
  have nextAligned : next.ptr % 8 = 0 := by omega
  have notLast : ¬ control.blockIsLast left.ptr := by
    rw [blockIsLast, rep.blockSize (by simp)]
    simpa using leftNot
  have shifted := rep
  rw [show before ++ left :: right :: next :: rest =
    (before ++ [left]) ++ right :: next :: rest by simp] at shifted
  have nextTag := shifted.next_tag
  have flags := Bool.toNat_le (endFree false before)
  have freeFlag := Bool.toNat_le left.free
  have joinedSize : addWord .bits64 (control.field left.ptr .size)
      (addWord .bits64 (control.blockSize right.ptr) (blockHeaderOverhead .bits64)) =
      (absorbed left right).tag (endFree false before) := by
    have inner : addWord .bits64 right.len 8 = right.len + 8 := addWord_of_lt (by omega)
    rw [rep.blockSize (by simp), rep.tag_eq, blockHeaderOverhead_bits64, inner]
    unfold Piece.tag absorbed
    dsimp only
    rw [addWord_of_lt (by omega)]
    omega
  let grown := control.setField left.ptr .size ((absorbed left right).tag (endFree false before))
  let new := grown.setField next.ptr .prevPhysBlock left.ptr
  have tagFits : (absorbed left right).tag (endFree false before) < 2 ^ 64 := by
    unfold Piece.tag absorbed
    dsimp only
    omega
  have grownOwn : grown.field left.ptr .size = (absorbed left right).tag (endFree false before) :=
    (field_setField aligned aligned tagFits).trans (if_pos rfl)
  have grownSize : grown.blockSize left.ptr = (absorbed left right).len := by
    rw [blockSize, grownOwn, Piece.tag_len]
    unfold absorbed
    dsimp only
    omega
  have isNextOf : grown.blockNext left.ptr = some next.ptr := by
    have stillNot : ¬ grown.blockIsLast left.ptr := by
      rw [blockIsLast, grownSize, absorbed]
      simp
    have ends : left.ptr + (8 + (absorbed left right).len) = next.ptr := by
      simp only [absorbed]
      omega
    unfold blockNext
    rw [guard_bind stillNot, grownSize, blockHeaderOverhead_bits64, offsetToBlock_end (by omega),
      ends]
    rfl
  refine ⟨new, ?_, ⟨rfl, rfl, rfl, rfl⟩, ?_, ?_, ?_, ?_, ?_⟩
  · unfold blockAbsorb
    rw [guard_bind notLast, joinedSize]
    dsimp only
    unfold blockLinkNext
    rw [isNextOf]
    rfl
  · intro place outside notTag
    have notLeft := outside left (by simp)
    have notRight := outside right (by simp)
    unfold Owns at notLeft notRight
    exact (setField_outside (by simp only [Field.offset]; omega)).trans
      (setField_outside (by simp only [Field.offset]; omega))
  · have stays : new.field left.ptr .size = grown.field left.ptr .size :=
      field_setField_of_ne nextAligned aligned (by simp only [Field.offset]; omega)
    rw [stays, grownOwn]
  · exact (field_setField nextAligned nextAligned (by omega)).trans (if_pos rfl)
  · have stays : new.field next.ptr .size = grown.field next.ptr .size :=
      field_setField_of_ne nextAligned nextAligned (by simp only [Field.offset]; omega)
    have before : grown.field next.ptr .size = control.field next.ptr .size :=
      field_setField_of_ne aligned nextAligned (by simp only [Field.offset]; omega)
    rw [stays, before, nextTag]
  · intro other member place low high
    rw [List.mem_singleton.mp member] at low high
    exact (setField_outside (by simp only [Field.offset]; omega)).trans
      (setField_outside (by simp only [Field.offset]; omega))

/-- Two adjacent loose blocks are joined. -/
theorem blockAbsorb_spec
    (rep : Rep pools control (before ++ left :: right :: next :: rest) lists
      (right.ptr :: left.ptr :: loose))
    (leftFree : left.free = true) (rightFree : right.free = true) :
    ∃ new, control.blockAbsorb left.ptr right.ptr = some new ∧
      Rep pools new (before ++ absorbed left right :: next :: rest) lists (left.ptr :: loose) ∧
      Kept (before ++ next :: rest) control.memory new.memory := by
  have leftNot := rep.laid.pooled.len_ne (show left ∈ _ by simp) leftFree
  have rightNot := rep.laid.pooled.len_ne (show right ∈ _ by simp) rightFree
  obtain ⟨isRight, isNext, aligned, _, leftSize, rightSize, small, fits⟩ :=
    pair_bounds rep.laid leftNot rightNot
  obtain ⟨new, isAbsorbed, same, confined, newOwn, newLink, newNext, _⟩ :=
    blockAbsorb_headers rep leftNot rightNot
  have refits : Refits [left, right] [absorbed left right] := refits_join leftSize rightSize
  have link : loadPointer new.memory
      ((absorbed left right).ptr + 8 + (absorbed left right).len) = left.ptr := by
    rw [show (absorbed left right).ptr + 8 + (absorbed left right).len = next.ptr by
      simp only [absorbed]; omega]
    exact newLink
  have unlisted : ∀ other ∈ [left, right], other.free = true →
      other.ptr ∈ right.ptr :: left.ptr :: loose := by
    intro other member _
    rcases List.mem_cons.mp member with isLeft | isRight
    · simp [isLeft]
    · simp [List.mem_singleton.mp isRight]
  have newUnlisted : ∀ other ∈ [absorbed left right], other.free = true →
      other.ptr ∈ left.ptr :: loose := by
    intro other member _
    rw [List.mem_singleton.mp member]
    exact List.mem_cons_self
  have sameLoose : ∀ other ∈ before ++ next :: rest,
      other.ptr ∈ left.ptr :: loose ↔ other.ptr ∈ right.ptr :: left.ptr :: loose := by
    intro other member
    simp [ptr_ne_second rep.laid member]
  have nextTag : new.field next.ptr .size = next.tag (absorbed left right).free := by
    rw [newNext, rightFree, absorbed, leftFree]
  have replaced := refits.rep rep (left.ptr :: loose) confined ⟨newOwn, fun _ => link, trivial⟩
    nextTag unlisted newUnlisted sameLoose
  rw [same.eq] at replaced
  exact ⟨new, isAbsorbed, replaced⟩

/-- A used block takes in the loose block behind it. -/
theorem absorbUsed_spec
    (rep : Rep pools control (before ++ left :: right :: next :: rest) lists (right.ptr :: loose))
    (leftUsed : left.free = false) (leftNot : left.len ≠ 0) (rightFree : right.free = true)
    (notLoose : right.ptr ∉ loose) :
    ∃ absorbing new, control.blockAbsorb left.ptr right.ptr = some absorbing ∧
      absorbing.blockMarkAsUsed left.ptr = some new ∧
      Rep pools new (before ++ absorbed left right :: next :: rest) lists loose ∧
      Kept (left :: (before ++ next :: rest)) control.memory new.memory := by
  have rightNot := rep.laid.pooled.len_ne (show right ∈ _ by simp) rightFree
  obtain ⟨isRight, isNext, aligned, _, leftSize, rightSize, small, fits⟩ :=
    pair_bounds rep.laid leftNot rightNot
  obtain ⟨absorbing, isAbsorbed, same, confined, ownTag, _, nextTag, keptLeft⟩ :=
    blockAbsorb_headers rep leftNot rightNot
  have nextAligned : next.ptr % 8 = 0 := by omega
  have nextMod := rep.len_mod (show next ∈ _ by simp)
  have joinedMod : (absorbed left right).len % 4 = 0 := by
    unfold absorbed
    dsimp only
    omega
  let marked := absorbing.blockSetPrevUsed next.ptr
  let new := marked.blockSetUsed left.ptr
  have isMarked : absorbing.blockMarkAsUsed left.ptr = some new := by
    have joinedSize : absorbing.blockSize left.ptr = (absorbed left right).len := by
      rw [blockSize, ownTag, Piece.tag_len joinedMod]
    have notLast : ¬ absorbing.blockIsLast left.ptr := by
      rw [blockIsLast, joinedSize, absorbed]
      simp
    have ends : left.ptr + (8 + (absorbed left right).len) = next.ptr := by
      simp only [absorbed]
      omega
    unfold blockMarkAsUsed blockNext
    rw [guard_bind notLast, joinedSize, blockHeaderOverhead_bits64,
      offsetToBlock_end (by omega), ends]
    rfl
  have newOwn : new.field left.ptr .size = (absorbed left right).tag (endFree false before) := by
    have stays : marked.field left.ptr .size = absorbing.field left.ptr .size :=
      field_setField_of_ne nextAligned aligned (by simp only [Field.offset]; omega)
    rw [size_blockSetUsed aligned, stays, ownTag, tag_used joinedMod]
    simp [absorbed, Piece.used, leftUsed]
  have newNext : new.field next.ptr .size = next.tag false := by
    have stays : new.field next.ptr .size = marked.field next.ptr .size :=
      field_setField_of_ne aligned nextAligned (by simp only [Field.offset]; omega)
    rw [stays, size_blockSetPrevUsed nextAligned, nextTag, tag_prevUsed nextMod]
  have newSame : ∀ place, (place < left.ptr + 8 ∨ left.ptr + 16 ≤ place) →
      (place < next.ptr + 8 ∨ next.ptr + 16 ≤ place) → new.memory place = absorbing.memory place := by
    intro place notLeft notNext
    exact (setField_outside (by simp only [Field.offset]; omega)).trans
      (setField_outside (by simp only [Field.offset]; omega))
  have newConfined : Confined 8 [left, right] next control.memory new.memory := by
    intro place outside notTag
    have notLeft := outside left (by simp)
    unfold Owns at notLeft
    exact (newSame place (by omega) (by omega)).trans (confined place outside notTag)
  have refits : Refits [left, right] [absorbed left right] := refits_join leftSize rightSize
  have unlisted : ∀ other ∈ [left, right], other.free = true → other.ptr ∈ right.ptr :: loose := by
    intro other member isFree
    rcases List.mem_cons.mp member with isLeft | isRight
    · rw [isLeft, leftUsed] at isFree
      cases isFree
    · simp [List.mem_singleton.mp isRight]
  have newUnlisted : ∀ other ∈ [absorbed left right], other.free = true → other.ptr ∈ loose := by
    intro other member isFree
    rw [List.mem_singleton.mp member, absorbed, leftUsed] at isFree
    cases isFree
  have sameLoose : ∀ other ∈ before ++ next :: rest,
      other.ptr ∈ loose ↔ other.ptr ∈ right.ptr :: loose := by
    intro other member
    simp [ptr_ne_second rep.laid member]
  have nextFlag : new.field next.ptr .size = next.tag (absorbed left right).free := by
    rw [newNext, absorbed, leftUsed]
  have noLink : (absorbed left right).free = true →
      loadPointer new.memory ((absorbed left right).ptr + 8 + (absorbed left right).len) =
        (absorbed left right).ptr := by
    intro isFree
    rw [absorbed, leftUsed] at isFree
    cases isFree
  obtain ⟨replaced, kept⟩ := refits.rep rep loose newConfined ⟨newOwn, noLink, trivial⟩
    nextFlag unlisted newUnlisted sameLoose
  have sameNew : SameTables control new := same.trans ⟨rfl, rfl, rfl, rfl⟩
  rw [sameNew.eq] at replaced
  refine ⟨absorbing, new, isAbsorbed, isMarked, replaced, ?_⟩
  intro other member place low high
  rcases List.mem_cons.mp member with isLeft | member
  · rw [isLeft] at low high
    rw [newSame place (by omega) (by omega)]
    exact keptLeft left (List.mem_singleton_self _) place low high
  · exact kept other member place low high

end Control

end MallocSurvey.Tlsf
