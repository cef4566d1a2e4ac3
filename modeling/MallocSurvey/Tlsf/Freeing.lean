import MallocSurvey.Tlsf.Splitting

/-! # Finding a block and handing it out -/

namespace MallocSurvey.Tlsf

open Library

/-- The class that the search for a size starts with. -/
def targetClass (size : Nat) : Nat × Nat := classOf (LogLinear.roundUp 5 size)

/-- The size is one that the allocator works with, and its rounded class is in the tables. -/
structure Searchable (size : Nat) : Prop where
  aligned : size % 8 = 0
  least : 24 ≤ size
  inTables : size ≤ largestRequest .bits64

/-- No free block is in a class that serves the size. -/
def NoneFits (pieces : List Piece) (size : Nat) : Prop :=
  ∀ piece ∈ pieces, piece.free = true → ¬ Serves (targetClass size) (classOf piece.len)

theorem Searchable.index {size : Nat} (searchable : Searchable size) :
    mappingSearch .bits64 size = some (targetClass size) ∧ Indexed (targetClass size) := by
  have inRange := searchable.inTables
  have least := searchable.least
  have largest : largestRequest .bits64 < 2 ^ 36 := by decide
  have bounded : size ≤ 2 ^ (Arch.bits64.wordBits - 1) := by
    simp only [Arch.wordBits]
    omega
  have shift : Nat.log2 size < 36 := (Nat.log2_lt (by omega)).mpr (by omega)
  obtain ⟨fl, sl, isClass, flLt, slLt⟩ := (inTables_mappingSearch bounded).mpr inRange
  have isTarget : mappingSearch .bits64 size = some (targetClass size) := by
    rw [mappingSearch_eq shift bounded, mappingInsert_eq]
    rfl
  refine ⟨isTarget, ?_⟩
  rw [isTarget, Option.some.injEq] at isClass
  rw [isClass]
  exact ⟨flLt, slLt⟩

/-- What the search finds holds the size. -/
theorem Searchable.le_of_serves {size length : Nat} (searchable : Searchable size)
    (serves : Serves (targetClass size) (classOf length)) : size ≤ length := by
  have isTarget := mappingInsert_eq .bits64 (LogLinear.roundUp 5 size)
  have isClass := mappingInsert_eq .bits64 length
  have aligned : 2 ^ 3 ∣ size := Nat.dvd_of_mod_eq_zero searchable.aligned
  exact LogLinear.le_of_index_roundUp_le aligned
    ((serves_mappingInsert isTarget isClass).mp serves)

namespace Control

variable {pools : List (Nat × Nat)} {control : Control} {pieces before after rest : List Piece}
  {piece next : Piece} {lists : Nat × Nat → List Nat} {index : Nat × Nat} {size : Nat}

/-- The search returns the head of a list that serves the class, or nothing serves it. -/
theorem searchSuitableBlock_spec (rep : Rep pools control pieces lists [])
    (isIndexed : Indexed index) :
    (∃ block found, control.searchSuitableBlock index = some (block, found) ∧ Indexed found ∧
        Serves index found ∧ control.blocks found = block ∧ block ∈ lists found) ∨
      ∃ found, control.searchSuitableBlock index = some (0, found) ∧
        ∀ other, other.1 < 32 → Serves index other → lists other = [] := by
  obtain ⟨level, part⟩ := index
  unfold searchSuitableBlock
  rw [guard_bind isIndexed]
  dsimp only
  cases isPart : lowestBit (bitsFrom (control.slBitmap level) part) with
  | some sl =>
      obtain ⟨above, small, nonempty⟩ := rep.marked.found_in_level isPart
      refine .inl ⟨_, (level, sl), rfl, ⟨isIndexed.1, small⟩, .inr ⟨rfl, above⟩, rfl, ?_⟩
      exact rep.segregated.head_mem nonempty
  | none =>
      dsimp only
      cases isLevel : lowestBit (bitsFrom control.flBitmap (level + 1)) with
      | none =>
          refine .inr ⟨_, rfl, ?_⟩
          intro other small serves
          exact rep.marked.none_found (lowestBit_eq_none_iff.mp isPart)
            (lowestBit_eq_none_iff.mp isLevel) small serves
      | some fl =>
          obtain ⟨above, sl, isLowest, small, nonempty⟩ := rep.marked.found_level isLevel
          have isListed := rep.segregated.head_mem nonempty
          obtain ⟨listed, isPiece, _, _, _, isClass⟩ := (rep.listed _ _).mp isListed
          have inTables : Indexed (fl, sl) := isClass ▸ (rep.indexed isPiece).1
          refine .inl ⟨_, (fl, sl), ?_, inTables, .inl above, rfl, isListed⟩
          dsimp only
          rw [guard_bind inTables.1, isLowest]
          rfl

/-- A block that is found is loose; otherwise nothing changes. -/
theorem blockLocateFree_spec (rep : Rep pools control pieces lists []) (searchable : Searchable size) :
    (control.blockLocateFree size = some (control, 0) ∧ NoneFits pieces size) ∨
      ∃ new newLists, ∃ piece ∈ pieces, piece.free = true ∧ size ≤ piece.len ∧
        Serves (targetClass size) (classOf piece.len) ∧
        control.blockLocateFree size = some (new, piece.ptr) ∧
        Rep pools new pieces newLists [piece.ptr] ∧
        Kept (usedPieces pieces) control.memory new.memory := by
  obtain ⟨isTarget, isIndexed⟩ := searchable.index
  have least := searchable.least
  unfold blockLocateFree
  rw [if_pos (show size ≠ 0 by omega), isTarget, some_bind]
  rcases searchSuitableBlock_spec rep isIndexed with
    ⟨block, found, isFound, foundIndexed, serves, _, isListed⟩ | ⟨found, isFound, noneServes⟩
  · right
    obtain ⟨piece, member, isPtr, isFree, notLoose, isClass⟩ := (rep.listed _ _).mp isListed
    have holds : size ≤ piece.len := searchable.le_of_serves (isClass ▸ serves)
    have nonzero := (rep.laid.piece_bounds member).2.1
    obtain ⟨newRep, kept⟩ := rep_unlinked rep member isFree (by simp)
    have bigEnough : size ≤ control.blockSize block := by
      rw [← isPtr, rep.blockSize member]
      exact holds
    refine ⟨_, _, piece, member, isFree, holds, isClass ▸ serves, ?_, newRep, kept⟩
    rw [isFound, some_bind]
    dsimp only
    rw [if_pos (show block ≠ 0 by omega), guard_bind bigEnough,
      removeFreeBlock_eq rep isListed foundIndexed, ← isPtr, isClass]
    rfl
  · left
    refine ⟨by rw [isFound]; rfl, ?_⟩
    intro piece member isFree serves
    have inTables := (rep.indexed member).1
    have isEmpty := noneServes (classOf piece.len) (inTables.1.trans (by decide)) serves
    have isListed := (rep.listed (classOf piece.len) piece.ptr).mpr
      ⟨piece, member, rfl, isFree, by simp, rfl⟩
    rw [isEmpty] at isListed
    cases isListed

/-- A loose block is trimmed and becomes used. -/
theorem blockPrepareUsed_spec
    (rep : Rep pools control (before ++ piece :: after) lists [piece.ptr])
    (isFree : piece.free = true) (aligned : size % 8 = 0) (least : 24 ≤ size)
    (small : size < 2 ^ 63) (holds : size ≤ piece.len) :
    ∃ new newLists middle, control.blockPrepareUsed piece.ptr size = some (new, piece.ptr + 16) ∧
      Rep pools new (before ++ (middle ++ after)) newLists [] ∧ Obtained 8 size piece middle ∧
      Kept (usedPieces (before ++ after)) control.memory new.memory := by
  obtain ⟨next, rest, isCons, _⟩ := rep.exists_next (rep.laid.pooled.len_ne (by simp) isFree)
  subst isCons
  have nonzero := (rep.laid.piece_bounds (show piece ∈ _ by simp)).2.1
  obtain ⟨trimmed, trimmedLists, middle, isTrimmed, trimmedRep, shape, trimmedKept⟩ :=
    blockTrimFree_spec rep isFree aligned least small
  unfold blockPrepareUsed
  rw [if_pos (show piece.ptr ≠ 0 by omega), isTrimmed, some_bind]
  rcases shape with ⟨_, isWhole⟩ | ⟨room, isSplit⟩
  · subst isWhole
    obtain ⟨new, isMarked, newRep, newKept⟩ := blockMarkAsUsed_spec trimmedRep isFree (by simp)
    refine ⟨new, trimmedLists, [piece.used], by rw [isMarked]; rfl, newRep,
      ⟨holds, .inl rfl⟩, trimmedKept.trans (newKept.subset used_subset)⟩
  · subst isSplit
    have shortRep : Rep pools trimmed
        (before ++ shortened piece size :: cutOff piece size :: (next :: rest)) trimmedLists
          [(shortened piece size).ptr] := trimmedRep
    obtain ⟨new, isMarked, newRep, newKept⟩ := blockMarkAsUsed_spec shortRep isFree (by simp)
    have isMarked : trimmed.blockMarkAsUsed piece.ptr = some new := isMarked
    refine ⟨new, trimmedLists, [(shortened piece size).used, cutOff piece size],
      by rw [isMarked]; rfl, newRep, ⟨holds, .inr ⟨by omega, (cutOff piece size).ptr, ?_⟩⟩, ?_⟩
    · rw [Nat.sub_sub]
      rfl
    · refine trimmedKept.trans (newKept.subset ?_)
      intro other member
      have inPieces := used_subset other member
      rcases List.mem_append.mp inPieces with inBefore | inRest
      · exact List.mem_append_left _ inBefore
      · exact List.mem_append_right _ (List.mem_cons_of_mem _ inRest)

theorem blockPrepareUsed_null (size : Nat) :
    control.blockPrepareUsed 0 size = some (control, 0) := rfl

/-- A request is served by part of a free block, or nothing changes. -/
theorem tlsfMalloc_spec (rep : Rep pools control pieces lists [])
    (searchable : Searchable (adjustRequestSize .bits64 size 8)) :
    (control.tlsfMalloc size = some (control, 0) ∧
        NoneFits pieces (adjustRequestSize .bits64 size 8)) ∨
      ∃ new newLists before piece after middle, pieces = before ++ piece :: after ∧
        piece.free = true ∧ Obtained 8 (adjustRequestSize .bits64 size 8) piece middle ∧
        control.tlsfMalloc size = some (new, piece.ptr + 16) ∧
        Rep pools new (before ++ (middle ++ after)) newLists [] ∧
        Kept (usedPieces (before ++ after)) control.memory new.memory := by
  have inRange := searchable.inTables
  have largest : largestRequest .bits64 < 2 ^ 63 := by decide
  unfold tlsfMalloc
  rw [alignSize_bits64]
  dsimp only
  rcases blockLocateFree_spec rep searchable with ⟨isNone, noneFits⟩ |
    ⟨located, locatedLists, piece, member, isFree, holds, _, isLocated, locatedRep, locatedKept⟩
  · refine .inl ⟨?_, noneFits⟩
    rw [isNone, some_bind]
    exact blockPrepareUsed_null _
  · right
    obtain ⟨before, after, isSplit⟩ := List.append_of_mem member
    subst isSplit
    obtain ⟨new, newLists, middle, isPrepared, newRep, obtained, newKept⟩ :=
      blockPrepareUsed_spec locatedRep isFree searchable.aligned searchable.least (by omega) holds
    refine ⟨new, newLists, before, piece, after, middle, rfl, isFree, obtained, ?_, newRep, ?_⟩
    · rw [isLocated, some_bind]
      exact isPrepared
    · refine (locatedKept.subset ?_).trans newKept
      exact held_subset before [piece] after

end Control

end MallocSurvey.Tlsf

/-! # Freeing blocks -/

namespace MallocSurvey.Tlsf

open Library

theorem Rep.loose_congr {pools : List (Nat × Nat)} {control : Control} {pieces : List Piece}
    {lists : Nat × Nat → List Nat} {loose other : List Nat}
    (rep : Rep pools control pieces lists loose) (same : ∀ node, node ∈ other ↔ node ∈ loose) :
    Rep pools control pieces lists other :=
  { rep with
    listed := by
      intro index node
      rw [rep.listed, same] }

theorem usedPieces_drop {before after : List Piece} {left : Piece} (isFree : left.free = true) :
    usedPieces (before ++ [left] ++ after) = usedPieces (before ++ after) := by
  simp [usedPieces, isFree]

namespace Control

variable {pools : List (Nat × Nat)} {control : Control} {before after rest : List Piece}
  {piece : Piece} {lists : Nat × Nat → List Nat} {size : Nat}

/-- A loose block is joined with the one before it if that is free. -/
theorem blockMergePrev_spec
    (rep : Rep pools control (before ++ piece.freed :: after) lists [piece.ptr]) :
    ∃ new newLists,
      control.blockMergePrev piece.ptr = some (new, (absorbPrev 8 before piece).2.ptr) ∧
      Rep pools new ((absorbPrev 8 before piece).1 ++ (absorbPrev 8 before piece).2.freed :: after)
        newLists [(absorbPrev 8 before piece).2.ptr] ∧
      Kept (usedPieces (before ++ after)) control.memory new.memory := by
  have isPrevFree : control.blockIsPrevFree piece.ptr = endFree false before := rep.blockIsPrevFree
  unfold blockMergePrev
  rw [isPrevFree]
  rcases absorbPrev_cases 8 before piece with ⟨isSame, lastUsed⟩ | ⟨rest, left, isConcat, leftFree,
    isJoined⟩
  · rw [isSame, endFree_of_last lastUsed]
    exact ⟨control, lists, rfl, rep, Kept.refl _ _⟩
  · rw [isJoined]
    subst isConcat
    have pairRep : Rep pools control (rest ++ left :: piece.freed :: after) lists [piece.ptr] := by
      rwa [List.append_assoc] at rep
    have leftMember : left ∈ rest ++ left :: piece.freed :: after := by simp
    have nonzero := (pairRep.laid.piece_bounds leftMember).2.1
    have isPrev : control.blockPrev piece.ptr = left.ptr := pairRep.blockPrev leftFree
    have isFree : control.blockIsFree left.ptr = true := by
      rw [pairRep.blockIsFree leftMember, leftFree]
    have notLoose : left.ptr ∉ [piece.ptr] := by
      intro isLoose
      have same := pairRep.laid.ptr_inj leftMember (show piece.freed ∈ _ by simp)
        (List.mem_singleton.mp isLoose)
      have nodup := pairRep.laid.ptr_nodup
      rw [same, List.map_append, List.map_cons, List.map_cons, List.nodup_append] at nodup
      simp at nodup
    obtain ⟨removed, removedLists, isRemoved, removedRep, removedKept⟩ :=
      blockRemove_spec pairRep leftMember leftFree notLoose
    obtain ⟨next, others, isCons, _⟩ :=
      rep.exists_next (rep.laid.pooled.len_ne (show piece.freed ∈ _ by simp) rfl)
    subst isCons
    have swapped : ∀ node, node ∈ [piece.freed.ptr, left.ptr] ↔ node ∈ [left.ptr, piece.ptr] := by
      intro node
      simp [Piece.freed, or_comm]
    have looseRep := removedRep.loose_congr swapped
    obtain ⟨new, isAbsorbed, newRep, newKept⟩ := blockAbsorb_spec looseRep leftFree rfl
    have isAbsorbed : removed.blockAbsorb left.ptr piece.ptr = some new := isAbsorbed
    have isPiece : absorbed left piece.freed = (left.joined 8 piece).freed := by
      simp only [absorbed, Piece.freed, Piece.joined, leftFree]
    refine ⟨new, removedLists, ?_, ?_, ?_⟩
    · rw [endFree_concat, leftFree, if_pos rfl, isPrev]
      dsimp only
      rw [guard_bind (show left.ptr ≠ 0 by omega), guard_bind isFree, isRemoved,
        some_bind, isAbsorbed]
      rfl
    · rw [← isPiece]
      exact newRep
    · have used : usedPieces (rest ++ [left] ++ next :: others) =
          usedPieces (rest ++ next :: others) := usedPieces_drop leftFree
      rw [used]
      refine (removedKept.subset ?_).trans (newKept.subset used_subset)
      exact held_subset rest [left, piece.freed] (next :: others)

/-- A loose block is joined with the next one if that is free. -/
theorem blockMergeNext_spec
    (rep : Rep pools control (before ++ piece.freed :: after) lists [piece.ptr]) :
    ∃ new newLists, control.blockMergeNext piece.ptr = some new ∧
      Rep pools new (before ++ (absorbNext 8 piece after).1.freed :: (absorbNext 8 piece after).2)
        newLists [piece.ptr] ∧
      Kept (usedPieces (before ++ after)) control.memory new.memory := by
  have member : piece.freed ∈ before ++ piece.freed :: after := by simp
  have notSentinel := rep.laid.pooled.len_ne member rfl
  have isNextOf : control.blockNext piece.ptr = some (piece.ptr + (8 + piece.len)) := by
    have found := rep.blockNext member notSentinel
    exact found
  obtain ⟨next, others, isCons, isNext⟩ := rep.exists_next notSentinel
  have isNext : next.ptr = piece.ptr + (8 + piece.len) := isNext
  subst isCons
  have nextMember : next ∈ before ++ piece.freed :: next :: others := by simp
  unfold blockMergeNext
  rw [isNextOf, some_bind, ← isNext,
    guard_bind (show next.ptr ≠ 0 by omega), rep.blockIsFree nextMember]
  rcases absorbNext_cases 8 piece (next :: others) with ⟨isSame, nextUsed⟩ | ⟨right, rest, isCons,
    rightFree, isJoined⟩
  · rw [isSame, nextUsed next rfl]
    exact ⟨control, lists, rfl, rep, Kept.refl _ _⟩
  · cases isCons
    rw [isJoined, rightFree]
    have notLoose : next.ptr ∉ [piece.ptr] := by
      rw [List.mem_singleton]
      omega
    have notLast : ¬ control.blockIsLast piece.ptr := by
      have found := rep.blockSize member
      have isSize : control.blockSize piece.ptr = piece.len := found
      rw [blockIsLast, isSize, decide_eq_true_eq]
      exact notSentinel
    obtain ⟨removed, removedLists, isRemoved, removedRep, removedKept⟩ :=
      blockRemove_spec rep nextMember rightFree notLoose
    have shifted := rep
    rw [show before ++ piece.freed :: next :: others = (before ++ [piece.freed]) ++ next :: others
      by simp] at shifted
    obtain ⟨second, last, isCons, _⟩ :=
      shifted.exists_next (rep.laid.pooled.len_ne nextMember rightFree)
    subst isCons
    obtain ⟨new, isAbsorbed, newRep, newKept⟩ := blockAbsorb_spec removedRep rfl rightFree
    have isAbsorbed : removed.blockAbsorb piece.ptr next.ptr = some new := isAbsorbed
    refine ⟨new, removedLists, ?_, newRep, ?_⟩
    · rw [if_pos rfl, guard_bind notLast, isRemoved, some_bind]
      exact isAbsorbed
    · have used : usedPieces (before ++ next :: second :: last) =
          usedPieces (before ++ second :: last) := by
        rw [usedPieces_append, usedPieces_append, usedPieces_cons_free rightFree]
      rw [used]
      refine (removedKept.subset ?_).trans (newKept.subset used_subset)
      exact held_subset before [piece.freed, next] (second :: last)

/-- A used block is released. -/
theorem tlsfFree_spec (rep : Rep pools control (before ++ piece :: after) lists [])
    (isUsed : piece.free = false) (notSentinel : piece.len ≠ 0) :
    ∃ new newLists, control.tlsfFree (piece.ptr + 16) = some new ∧
      Rep pools new (released 8 before piece after) newLists [] ∧
      Kept (usedPieces (before ++ after)) control.memory new.memory := by
  have notFree : ¬ control.blockIsFree piece.ptr := by
    rw [rep.blockIsFree (by simp), isUsed]
    decide
  obtain ⟨next, others, isCons, _⟩ := rep.exists_next notSentinel
  subst isCons
  obtain ⟨marked, isMarked, markedRep, markedKept⟩ := blockMarkAsFree_spec rep isUsed notSentinel
  obtain ⟨joined, joinedLists, isJoined, joinedRep, joinedKept⟩ := blockMergePrev_spec markedRep
  obtain ⟨merged, mergedLists, isMerged, mergedRep, mergedKept⟩ := blockMergeNext_spec joinedRep
  have mergedPtr : (absorbNext 8 (absorbPrev 8 before piece).2 (next :: others)).1.freed.ptr =
      (absorbPrev 8 before piece).2.ptr := by
    rcases absorbNext_cases 8 (absorbPrev 8 before piece).2 (next :: others) with
      ⟨isSame, _⟩ | ⟨_, _, _, _, isSame⟩
    · rw [isSame]
      rfl
    · rw [isSame]
      rfl
  rw [← mergedPtr] at mergedRep
  obtain ⟨new, newLists, isInserted, newRep, newKept⟩ :=
    blockInsert_spec mergedRep (by simp) rfl (by simp)
  rw [mergedPtr] at isInserted
  refine ⟨new, newLists, ?_, newRep, ?_⟩
  · unfold tlsfFree
    rw [if_pos (show piece.ptr + 16 ≠ 0 by omega)]
    have isBlock : blockFromPtr (piece.ptr + 16) = piece.ptr := Nat.add_sub_cancel _ _
    dsimp only
    rw [isBlock, guard_bind notFree, isMarked, some_bind, isJoined,
      some_bind]
    dsimp only
    rw [isMerged, some_bind]
    exact isInserted
  · have afterPrev : usedPieces (before ++ next :: others) =
        usedPieces ((absorbPrev 8 before piece).1 ++ next :: others) := by
      rcases absorbPrev_cases 8 before piece with ⟨isSame, _⟩ | ⟨rest, left, isConcat, leftFree,
        isSame⟩
      · rw [isSame]
      · rw [isSame, isConcat]
        exact usedPieces_drop leftFree
    have inAll := usedPieces_released 8 before piece (next :: others)
    rw [← usedPieces_append] at inAll
    refine (markedKept.subset used_subset).trans (joinedKept.trans ?_)
    rw [afterPrev]
    refine mergedKept.trans ?_
    rw [← afterPrev, ← inAll]
    exact newKept

end Control

end MallocSurvey.Tlsf
