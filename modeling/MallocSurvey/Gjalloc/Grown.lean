import MallocSurvey.Gjalloc.Growing

/-! # What growing achieves

A page that has been moved is sorted with its old layout. The tag for the new blocks is only
written again if the old page has room for it. -/

namespace MallocSurvey.Gjalloc

variable {l ol : Layout} {p n first head bvLength : Nat} {memory current : Words}
  {indices : List Nat} {tagged : Bool}

/-- The old free blocks and the new ones are free, the others are kept, and their chunks are
reported if they have moved. -/
structure Grown (ol l : Layout) (p n : Nat) (memory : Words) (free : Finset Nat)
    (h : PageHeader) (newMemory : Words) (chunks : List (Nat × Nat)) : Prop where
  describes : Describes l n newMemory h (free ∪ Finset.Ico ol.blocks l.blocks)
  contents : ∀ i < ol.blocks, i ∉ free → ∀ cell < ol.blockSize,
    newMemory (l.blockN n i + cell) = memory (ol.blockN p i + cell)
  reported : if n = p then chunks = [] else Covers l n chunks (liveBlocks ol.blocks free)

/-- `ba_grow_page` returns and achieves this. -/
def GrowsAt (bvLength : Nat) (ol l : Layout) (p n : Nat) (h : PageHeader) (memory : Words)
    (free : Finset Nat) : Prop :=
  ∃ newHeader newMemory chunks,
    baGrowPage bvLength p n h memory ol l = some (newHeader, newMemory, chunks) ∧
      Grown ol l p n memory free newHeader newMemory chunks

/-! ## The layouts -/

theorem FreeList.layout (sameSize : ol.blockSize = l.blockSize) (atLeast : ol.blocks ≤ l.blocks)
    (list : FreeList ol p memory first indices tagged) :
    FreeList l p memory first indices tagged :=
  ⟨(Chain.layout sameSize).mp list.chain,
    fun i member => Nat.lt_of_lt_of_le (list.bound i member) atLeast, list.nodup, list.tag⟩

theorem FreeList.ne_nil (list : FreeList l p memory first indices tagged)
    (isTagged : tagged = true) : indices ≠ [] :=
  list.nonempty (isTagged ▸ rfl)

/-- In a larger page a tag makes the new blocks free. -/
theorem FreeList.freeSet_layout (list : FreeList ol p memory first indices tagged)
    (atLeast : ol.blocks ≤ l.blocks) :
    freeSet l.blocks indices tagged = freeSet ol.blocks indices tagged ∪
      if tagged then Finset.Ico ol.blocks l.blocks else ∅ := by
  cases tagged with
  | true =>
      exact @freeSet_grown indices true ol.blocks l.blocks list.bound atLeast list.ne_nil (.inl rfl)
  | false =>
      ext i
      have larger : ∀ j ∈ indices, j < l.blocks :=
        fun j member => Nat.lt_of_lt_of_le (list.bound j member) atLeast
      rw [mem_freeSet_untagged larger, Finset.mem_union, mem_freeSet_untagged list.bound]
      simp

theorem movePage_block (valid : ol.Valid) {i cell : Nat} (inRange : i < ol.blocks)
    (inside : cell < ol.blockSize) :
    movePage memory p n ol.pageSize (ol.blockN n i + cell) = memory (ol.blockN p i + cell) := by
  have order := @Layout.blockN_lt ol n i ol.blocks inRange
  have isEnd := @Layout.pageEnd ol n valid
  have above := Layout.blockN_ge ol n i
  unfold movePage
  rw [if_pos (by omega)]
  congr 1
  unfold Layout.blockN
  omega

/-! ## The list with the new blocks -/

theorem grown_list (sameSize : ol.blockSize = l.blockSize) (atLeast : ol.blocks ≤ l.blocks)
    (list : FreeList ol p memory first indices tagged)
    (room : tagged = true ∨ ol.blocks < l.blocks)
    (chain : Chain l n current baOne head (grownList ol.blocks indices tagged)) :
    FreeList l n current head (grownList ol.blocks indices tagged) true := by
  have longer := list.layout sameSize atLeast
  cases tagged with
  | true => exact ⟨chain, longer.bound, longer.nodup, longer.tag⟩
  | false =>
      refine ⟨chain, ?_, ?_, fun _ => ⟨indices, ol.blocks, rfl, list.bound⟩⟩
      · intro i member
        rcases List.mem_append.mp member with isOld | isNew
        · exact longer.bound i isOld
        · exact List.mem_singleton.mp isNew ▸ room.resolve_left (by decide)
      · show (indices ++ [ol.blocks]).Nodup
        rw [List.nodup_append]
        refine ⟨list.nodup, List.nodup_singleton _, ?_⟩
        intro i isOld j isNew same
        have below := list.bound i isOld
        rw [same, List.mem_singleton.mp isNew] at below
        exact Nat.lt_irrefl _ below

theorem grown_bound (list : FreeList ol p memory first indices tagged) :
    ∀ i ∈ grownList ol.blocks indices tagged, i ≤ ol.blocks := by
  intro i member
  rcases mem_grownList.mp member with isOld | ⟨_, isNew⟩
  · exact Nat.le_of_lt (list.bound i isOld)
  · exact Nat.le_of_eq isNew

theorem grown_sorted (list : FreeList ol p memory first indices tagged)
    (sorted : indices.Pairwise (· < ·)) :
    (grownList ol.blocks indices tagged).Pairwise (· < ·) := by
  cases tagged with
  | true => exact sorted
  | false =>
      show (indices ++ [ol.blocks]).Pairwise (· < ·)
      rw [List.pairwise_append]
      refine ⟨sorted, List.pairwise_singleton _ _, ?_⟩
      intro i isOld j isNew
      exact List.mem_singleton.mp isNew ▸ list.bound i isOld

/-- The number of blocks in use stays. -/
theorem grown_used (atLeast : ol.blocks ≤ l.blocks) {free : Finset Nat}
    (inOld : ∀ i ∈ free, i < ol.blocks) :
    l.blocks - (free ∪ Finset.Ico ol.blocks l.blocks).card = ol.blocks - free.card := by
  rw [Finset.card_union_of_disjoint, Nat.card_Ico]
  · omega
  · rw [Finset.disjoint_left]
    intro i isFree isNew
    have isOld := inOld i isFree
    have notOld := (Finset.mem_Ico.mp isNew).1
    omega

/-! ## Sorting with the old layout -/

/-- The tag comes back if the last old block is free and another block comes before it. -/
theorem lengthOf_grown (oldValid : ol.Valid) (valid : l.Valid) (atLeast : ol.blocks ≤ l.blocks)
    (list : FreeList ol p memory first indices tagged)
    (room : tagged = true ∨ ol.blocks < l.blocks)
    (grown : FreeList l n current head (grownList ol.blocks indices tagged) true) :
    lengthOf ol.blocks baOne (grownList ol.blocks indices tagged) < ol.blocks ↔
      ol.blocks - 1 ∈ freeSet ol.blocks indices tagged ∧ 1 < ol.blocks := by
  obtain ⟨atLeastOne, atMost, isTail, _, isStop⟩ := grown.lengthOf_spec valid
  obtain ⟨length, isLength⟩ : ∃ length,
      lengthOf ol.blocks baOne (grownList ol.blocks indices tagged) = length := ⟨_, rfl⟩
  have sameLength : lengthOf l.blocks (endOf true) (grownList ol.blocks indices tagged) = length :=
    isLength
  rw [sameLength, freeSet_grown list.bound atLeast list.ne_nil room] at isTail isStop
  rw [sameLength] at atLeastOne atMost
  rw [isLength]
  have oldBlocks := oldValid.blocks
  have newBlocks : ∀ i, i ∈ Finset.Ico ol.blocks l.blocks → ol.blocks ≤ i :=
    fun i isNew => (Finset.mem_Ico.mp isNew).1
  constructor
  · intro below
    refine ⟨?_, by omega⟩
    rcases Finset.mem_union.mp (isTail (ol.blocks - 1) (by omega) (by omega)) with isOld | isNew
    · exact isOld
    · have above := newBlocks _ isNew
      omega
  · rintro ⟨lastFree, two⟩
    by_contra notBelow
    have isFree : length - 1 ∈
        freeSet ol.blocks indices tagged ∪ Finset.Ico ol.blocks l.blocks := by
      by_cases isLast : length - 1 = ol.blocks - 1
      · exact Finset.mem_union_left _ (isLast ▸ lastFree)
      · exact Finset.mem_union_right _ (Finset.mem_Ico.mpr ⟨by omega, by omega⟩)
    rcases isStop with isOne | notFree
    · omega
    · exact notFree isFree

/-- Sorting keeps the old free blocks, and it faults when the position of the first new block
does not fit into the bit vector. -/
theorem sort_grown (oldValid : ol.Valid) (valid : l.Valid) (positive : 0 < bvLength)
    (sameSize : ol.blockSize = l.blockSize) (atLeast : ol.blocks ≤ l.blocks)
    (list : FreeList ol p memory first indices tagged)
    (room : tagged = true ∨ ol.blocks < l.blocks)
    (grown : FreeList l n current head (grownList ol.blocks indices tagged) true) :
    if tagged = true ∨ ol.blocks ≠ 8 * bvByteLength bvLength ol.blocks then
      ∃ newFirst newMemory sorted newTagged,
        baSortList bvLength ol n head current = some (newFirst, newMemory) ∧
        FreeList ol n newMemory newFirst sorted newTagged ∧ sorted.Pairwise (· < ·) ∧
        freeSet ol.blocks sorted newTagged = freeSet ol.blocks indices tagged ∧
        (newTagged = true ↔ ol.blocks - 1 ∈ freeSet ol.blocks indices tagged ∧ 1 < ol.blocks) ∧
        ∀ place, (∀ i ∈ freeSet ol.blocks indices tagged ∪ Finset.Ico ol.blocks l.blocks,
          place ≠ l.blockN n i) → newMemory place = current place
    else baSortList bvLength ol n head current = none := by
  have chain := (Chain.layout sameSize).mpr grown.chain
  have isFree := freeSet_grown list.bound atLeast list.ne_nil room
  have fits : ∀ i ∈ indices, i < 8 * bvByteLength bvLength ol.blocks :=
    fun i member => room_of_lt positive (list.bound i member)
  by_cases fit : tagged = true ∨ ol.blocks ≠ 8 * bvByteLength bvLength ol.blocks
  · rw [if_pos fit]
    have allFit : ∀ i ∈ grownList ol.blocks indices tagged,
        i < 8 * bvByteLength bvLength ol.blocks := by
      intro i member
      rcases mem_grownList.mp member with isOld | ⟨notTagged, isNew⟩
      · exact fits i isOld
      · have notLimit := fit.resolve_left (by simp [notTagged])
        have lastFits := room_of_lt (l := ol) positive
          (show ol.blocks - 1 < ol.blocks from Nat.sub_lt oldValid.blocks Nat.one_pos)
        omega
    obtain ⟨newFirst, newMemory, isSort, tail, noTail, frame⟩ := @baSortList_spec ol n head
      baOne current (grownList ol.blocks indices tagged) bvLength oldValid chain (Nat.le_refl _)
      (fun _ => grown.ne_nil rfl) grown.nodup
      (fun i member => Nat.lt_succ_of_le (grown_bound list i member)) allFit
    have isTag := lengthOf_grown oldValid valid atLeast list room grown
    obtain ⟨atLeastOne, atMost, isTail, isBit, isStop⟩ := grown.lengthOf_spec valid
    obtain ⟨length, isLength⟩ : ∃ length,
        lengthOf ol.blocks baOne (grownList ol.blocks indices tagged) = length := ⟨_, rfl⟩
    have sameLength :
        lengthOf l.blocks (endOf true) (grownList ol.blocks indices tagged) = length := isLength
    rw [sameLength, isFree] at isTail isBit isStop
    rw [isLength] at tail noTail frame isTag
    have lengthAtMost : length ≤ ol.blocks := by
      by_contra above
      have isNew : length - 1 ∈ Finset.Ico ol.blocks l.blocks :=
        Finset.mem_Ico.mpr ⟨by omega, by omega⟩
      have blocks := oldValid.blocks
      rcases isStop with isOne | notFree
      · omega
      · exact notFree (Finset.mem_union_right _ isNew)
    have inOld : ∀ i ∈ freeSet ol.blocks indices tagged, i < ol.blocks :=
      fun i isOld => (mem_freeSet.mp isOld).1
    have onlyOld : ∀ i, i < ol.blocks →
        i ∈ freeSet ol.blocks indices tagged ∪ Finset.Ico ol.blocks l.blocks →
        i ∈ freeSet ol.blocks indices tagged := by
      intro i isOld isIn
      refine (Finset.mem_union.mp isIn).resolve_right fun isNew => ?_
      exact Nat.not_lt.mpr (Finset.mem_Ico.mp isNew).1 isOld
    have bits : ∀ i, i ∈ setBits (bitsOf (grownList ol.blocks indices tagged)) length ↔
        i < length ∧ i ∈ freeSet ol.blocks indices tagged := by
      intro i
      rw [mem_setBits, bitsOf, decide_eq_true_eq]
      refine and_congr_right fun below => (isBit i below).trans ⟨fun isIn => ?_, fun isOld => ?_⟩
      · exact onlyOld i (by omega) isIn
      · exact Finset.mem_union_left _ isOld
    obtain ⟨sorted, newTagged, sortedList, ascending, sameFree, tagIff⟩ := setBits_list bits
      inOld (fun i above inPage => onlyOld i inPage (isTail i above (by omega))) tail noTail
    refine ⟨newFirst, newMemory, sorted, newTagged, isSort, sortedList, ascending, sameFree,
      tagIff.trans isTag, ?_⟩
    intro place notFree
    rw [Layout.blockN_congr sameSize] at frame
    apply frame
    · intro i member _
      exact notFree i (isFree ▸ grown.mem_free member)
    · exact fun inside => notFree length (isTail length (Nat.le_refl _) (by omega))
  · rw [if_neg fit]
    rw [not_or, not_not, Bool.not_eq_true] at fit
    obtain ⟨notTagged, isLimit⟩ := fit
    subst notTagged
    obtain ⟨front, _⟩ := Chain.of_snoc chain
    refine baSortList_none oldValid front ?_ (show ¬ ol.blocks < _ by omega)
    intro i member isOne
    have above := (front.link_gt (Layout.one_lt_blockN ol n ol.blocks)).2 i member
    omega

/-! ## The whole function -/

/-- Links and tags are written to blocks that are free in the new page. -/
theorem Grown.of_list {h : PageHeader} {used : Nat} {newMemory : Words}
    {chunks : List (Nat × Nat)} {sorted : List Nat} {newTagged : Bool}
    (sameSize : ol.blockSize = l.blockSize) (atLeast : ol.blocks ≤ l.blocks)
    (newList : FreeList l n newMemory h.first sorted newTagged)
    (isFree : freeSet l.blocks sorted newTagged =
      freeSet ol.blocks indices tagged ∪ Finset.Ico ol.blocks l.blocks)
    (ascending : h.sorted → sorted.Pairwise (· < ·))
    (isUsed : used = ol.blocks - (freeSet ol.blocks indices tagged).card) (sameUsed : h.used = used)
    (kept : ∀ i < ol.blocks, ∀ cell < ol.blockSize,
      current (l.blockN n i + cell) = memory (ol.blockN p i + cell))
    (frame : ∀ place, (∀ i ∈ freeSet ol.blocks indices tagged ∪ Finset.Ico ol.blocks l.blocks,
      place ≠ l.blockN n i) → newMemory place = current place)
    (reported : if n = p then chunks = [] else
      Covers l n chunks (liveBlocks ol.blocks (freeSet ol.blocks indices tagged))) :
    Grown ol l p n memory (freeSet ol.blocks indices tagged) h newMemory chunks := by
  refine ⟨⟨⟨sorted, newTagged, newList, isFree, ascending⟩, ?_⟩, ?_, reported⟩
  · rw [grown_used atLeast fun i isOld => (mem_freeSet.mp isOld).1, sameUsed, isUsed]
  · intro i isOld live cell inside
    rw [← kept i isOld cell inside]
    refine frame _ fun j isFreeNow => ?_
    refine Layout.cell_ne (fun same => ?_) (sameSize ▸ inside)
    subst same
    rcases Finset.mem_union.mp isFreeNow with wasFree | isNew
    · exact live wasFree
    · exact Nat.not_lt.mpr (Finset.mem_Ico.mp isNew).1 isOld

theorem Covers.layout (sameSize : ol.blockSize = l.blockSize) {chunks : List (Nat × Nat)}
    {live : List Nat} (covers : Covers ol n chunks live) : Covers l n chunks live := by
  unfold Covers at covers ⊢
  rw [Layout.blockN_congr sameSize] at covers
  exact covers

theorem baGrowPage_moved {h : PageHeader} {headMid value : Nat} {memoryMid : Words}
    {last : Option Nat} (notNull : p ≠ 0) (isMoved : n ≠ p)
    (isRelocated : relocateList p n (ol.blocks + 1) h.first (movePage memory p n ol.pageSize) none =
      some (headMid, memoryMid, last, value)) :
    baGrowPage bvLength p n h memory ol l =
      (appendNew ol l n headMid memoryMid last value).bind fun (head, memory) =>
        (baSort bvLength ol n ⟨head, h.used, h.sorted⟩ memory).bind fun (h, memory) =>
          (walkChunks ol n h.first memory).bind fun chunks => some (h, memory, chunks) := by
  rw [baGrowPage, if_neg notNull, if_pos isMoved]
  dsimp only
  rw [isRelocated]
  rfl

theorem baGrowPage_stayed {h : PageHeader} {value : Nat} {last : Option Nat} (notNull : p ≠ 0)
    (isLast : lastLink memory (ol.blocks + 1) h.first none = some (last, value)) :
    baGrowPage bvLength p p h memory ol l =
      (appendNew ol l p h.first memory last value).bind fun (head, memory) =>
        some (⟨head, h.used, h.sorted⟩, memory, []) := by
  rw [baGrowPage, if_neg notNull, if_neg (not_not.mpr rfl), isLast]
  rfl

theorem baGrowPage_stays {h : PageHeader} (oldValid : ol.Valid) (valid : l.Valid)
    (sameSize : ol.blockSize = l.blockSize) (atLeast : ol.blocks ≤ l.blocks) (notNull : p ≠ 0)
    (list : FreeList ol p memory h.first indices tagged)
    (sorted : h.sorted → indices.Pairwise (· < ·))
    (used : h.used = ol.blocks - (freeSet ol.blocks indices tagged).card) :
    GrowsAt bvLength ol l p p h memory (freeSet ol.blocks indices tagged) ↔
      tagged = true ∨ ol.blocks < l.blocks := by
  have longer := list.layout sameSize atLeast
  have short := length_le_of_nodup list.nodup list.bound
  obtain ⟨last, isRechain, isEnd, isLast⟩ := @lastLink_spec l p h.first h.first _ (ol.blocks + 1)
    memory indices none longer.chain (endOf_le _) rfl (by omega)
  have appended := appendNew_spec oldValid valid sameSize atLeast list.bound list.nodup isRechain
    isEnd
  have isGrow := @baGrowPage_stayed l ol p bvLength memory h _ last notNull isLast
  by_cases room : tagged = true ∨ ol.blocks < l.blocks
  · rw [if_pos room] at appended
    obtain ⟨newHead, newMemory, isAppend, chain, frame⟩ := appended
    rw [isAppend] at isGrow
    have grown := grown_list sameSize atLeast list room chain
    have isFree := freeSet_grown list.bound atLeast list.ne_nil room
    have kept : ∀ i < ol.blocks, ∀ cell < ol.blockSize,
        memory (l.blockN p i + cell) = memory (ol.blockN p i + cell) := by
      intro i _ cell _
      rw [Layout.blockN_congr sameSize]
    have outside : ∀ place, (∀ i ∈ freeSet ol.blocks indices tagged ∪
        Finset.Ico ol.blocks l.blocks, place ≠ l.blockN p i) → newMemory place = memory place :=
      fun place away => frame place fun i member => away i (isFree ▸ grown.mem_free member)
    exact iff_of_true ⟨_, _, _, isGrow, Grown.of_list sameSize atLeast grown isFree
      (fun isSorted => grown_sorted list (sorted isSorted)) used rfl kept outside
      (by rw [if_pos rfl])⟩ room
  · rw [if_neg room] at appended
    rw [appended] at isGrow
    refine iff_of_false ?_ room
    rintro ⟨_, _, _, isSome, _⟩
    rw [isGrow] at isSome
    cases isSome

theorem baGrowPage_moves {h : PageHeader} (oldValid : ol.Valid) (valid : l.Valid)
    (positive : 0 < bvLength) (sameSize : ol.blockSize = l.blockSize)
    (atLeast : ol.blocks ≤ l.blocks) (notNull : p ≠ 0) (isMoved : n ≠ p)
    (list : FreeList ol p memory h.first indices tagged)
    (sorted : h.sorted → indices.Pairwise (· < ·))
    (used : h.used = ol.blocks - (freeSet ol.blocks indices tagged).card) :
    GrowsAt bvLength ol l p n h memory (freeSet ol.blocks indices tagged) ↔
      (tagged = true ∨ ol.blocks < l.blocks) ∧ (h.sorted = false →
        (ol.blocks < l.blocks →
          ol.blocks - 1 ∈ freeSet ol.blocks indices tagged ∧ 1 < ol.blocks) ∧
        (tagged = false → ol.blocks ≠ 8 * bvByteLength bvLength ol.blocks)) := by
  have longer := list.layout sameSize atLeast
  have short := length_le_of_nodup list.nodup list.bound
  have kept : ∀ i < ol.blocks, ∀ cell < ol.blockSize,
      movePage memory p n ol.pageSize (l.blockN n i + cell) = memory (ol.blockN p i + cell) := by
    intro i isOld cell inside
    rw [← Layout.blockN_congr sameSize]
    exact movePage_block oldValid isOld inside
  have moved : ∀ i ∈ indices,
      movePage memory p n ol.pageSize (l.blockN n i) = memory (l.blockN p i) := by
    intro i member
    have atStart := kept i (list.bound i member) 0 oldValid.blockSize_pos
    rwa [Nat.add_zero, Nat.add_zero, Layout.blockN_congr sameSize] at atStart
  obtain ⟨headMid, memoryMid, last, isRechain, isEnd, isRelocated⟩ := @relocateList_spec l p n
    h.first h.first _ (ol.blocks + 1) memory (movePage memory p n ol.pageSize) indices none valid
    longer.chain (endOf_le _) list.nodup moved (fun c impossible => by cases impossible) rfl
    (by omega)
  have appended := appendNew_spec oldValid valid sameSize atLeast list.bound list.nodup isRechain
    isEnd
  have isGrow := @baGrowPage_moved l ol p n bvLength memory h _ _ _ _ notNull isMoved isRelocated
  by_cases room : tagged = true ∨ ol.blocks < l.blocks
  · rw [if_pos room] at appended
    rw [and_iff_right room]
    obtain ⟨newHead, newMemory, isAppend, chain, frame⟩ := appended
    rw [isAppend] at isGrow
    have grown := grown_list sameSize atLeast list room chain
    have isFree := freeSet_grown list.bound atLeast list.ne_nil room
    have outside : ∀ place, (∀ i ∈ freeSet ol.blocks indices tagged ∪
        Finset.Ico ol.blocks l.blocks, place ≠ l.blockN n i) →
        newMemory place = movePage memory p n ol.pageSize place :=
      fun place away => frame place fun i member => away i (isFree ▸ grown.mem_free member)
    by_cases isSorted : h.sorted = true
    · -- the list with the new blocks is walked as it is
      have ascending := grown_sorted list (sorted isSorted)
      obtain ⟨chunks, isWalk, covers⟩ := @walkChunks_spec ol n newHead baOne newMemory _
        (freeSet ol.blocks indices tagged) oldValid ((Chain.layout sameSize).mpr grown.chain)
        (Nat.le_refl _) (fun _ => grown.ne_nil rfl) ascending (grown_bound list) (by
          have length := length_le_of_nodup grown.nodup
            (fun i member => Nat.lt_succ_of_le (grown_bound list i member))
          omega) (by
          intro i isOld
          have inNew : i < l.blocks := Nat.lt_of_lt_of_le isOld atLeast
          have isMember := congrArg (i ∈ ·) isFree
          rw [eq_iff_iff, mem_freeSet, Finset.mem_union, Finset.mem_Ico] at isMember
          rw [and_iff_right inNew] at isMember
          have notNew : ¬ (ol.blocks ≤ i ∧ i < l.blocks) := by omega
          rw [or_iff_left notNew] at isMember
          rw [← isMember, and_iff_right rfl, and_iff_right rfl])
      rw [Option.bind_some] at isGrow
      dsimp only at isGrow
      rw [baSort, if_pos isSorted, Option.bind_some] at isGrow
      dsimp only at isGrow
      rw [isWalk] at isGrow
      refine iff_of_true ⟨_, _, _, isGrow, Grown.of_list sameSize atLeast grown isFree
        (fun _ => ascending) used rfl kept outside ?_⟩ ?_
      · rw [if_neg isMoved]
        exact covers.layout sameSize
      · intro notSorted
        rw [isSorted] at notSorted
        cases notSorted
    · rw [Option.bind_some] at isGrow
      dsimp only at isGrow
      rw [baSort, if_neg isSorted] at isGrow
      dsimp only at isGrow
      rw [forall_prop_of_true (Bool.eq_false_iff.mpr isSorted)]
      have sortSpec := sort_grown oldValid valid positive sameSize atLeast list room grown
      by_cases fit : tagged = true ∨ ol.blocks ≠ 8 * bvByteLength bvLength ol.blocks
      · rw [if_pos fit] at sortSpec
        obtain ⟨newFirst, sortedMemory, sortedIndices, newTagged, isSort, sortedList, ascending,
          sameFree, tagIff, sortFrame⟩ := sortSpec
        rw [← tagIff]
        obtain ⟨chunks, isWalk, covers⟩ := sortedList.walkChunks oldValid ascending
        rw [sameFree] at covers
        have newFree := sortedList.freeSet_layout atLeast
        rw [sameFree] at newFree
        rw [isSort] at isGrow
        dsimp only [Option.bind_eq_bind, Option.bind_some, Option.pure_def] at isGrow
        rw [isWalk] at isGrow
        have fitAgain : tagged = false → ol.blocks ≠ 8 * bvByteLength bvLength ol.blocks :=
          fun notTagged => fit.resolve_left (by simp [notTagged])
        rw [and_iff_left fitAgain]
        by_cases keepsTag : ol.blocks < l.blocks → newTagged = true
        · have isNewFree : freeSet l.blocks sortedIndices newTagged =
              freeSet ol.blocks indices tagged ∪ Finset.Ico ol.blocks l.blocks := by
            rw [newFree]
            congr 1
            split
            · rfl
            · next noTag =>
                exact (Finset.Ico_eq_empty fun more => noTag (keepsTag more)).symm
          refine iff_of_true ⟨_, _, _, isGrow, Grown.of_list sameSize atLeast
            (sortedList.layout sameSize atLeast) isNewFree (fun _ => ascending) used rfl kept
            (fun place away => (sortFrame place away).trans (outside place away)) ?_⟩ keepsTag
          rw [if_neg isMoved]
          exact covers.layout sameSize
        · -- the new blocks are not in the list any more
          refine iff_of_false ?_ keepsTag
          rintro ⟨newHeader, endMemory, _, isSome, achieved⟩
          rw [isGrow] at isSome
          cases isSome
          rw [Classical.not_imp, Bool.not_eq_true] at keepsTag
          obtain ⟨more, noTag⟩ := keepsTag
          obtain ⟨others, otherTagged, otherList, otherFree, _⟩ := achieved.describes.list
          obtain ⟨rfl, rfl⟩ := (sortedList.layout sameSize atLeast).unique valid otherList
          rw [newFree, noTag] at otherFree
          have isNew : ol.blocks ∈ freeSet ol.blocks indices tagged ∪
              Finset.Ico ol.blocks l.blocks :=
            Finset.mem_union_right _ (Finset.mem_Ico.mpr ⟨Nat.le_refl _, more⟩)
          rw [← otherFree] at isNew
          simp only [Bool.false_eq_true, if_false, Finset.union_empty] at isNew
          exact Nat.lt_irrefl _ (mem_freeSet.mp isNew).1
      · rw [if_neg fit] at sortSpec
        rw [sortSpec] at isGrow
        refine iff_of_false ?_ fun both => fit ?_
        · rintro ⟨_, _, _, isSome, _⟩
          rw [isGrow] at isSome
          cases isSome
        · by_cases isTagged : tagged = true
          · exact .inl isTagged
          · exact .inr (both.2 (Bool.eq_false_iff.mpr isTagged))
  · rw [if_neg room] at appended
    rw [appended] at isGrow
    refine iff_of_false ?_ (fun both => room both.1)
    rintro ⟨_, _, _, isSome, _⟩
    rw [isGrow] at isSome
    cases isSome

/-- Growth achieves this unless there is no new block for a tag, or the page is moved, its list is
not marked as sorted, and the sort loses the tag or the first new block does not fit. -/
theorem baGrowPage_grows_iff {h : PageHeader} (oldValid : ol.Valid) (valid : l.Valid)
    (positive : 0 < bvLength) (sameSize : ol.blockSize = l.blockSize)
    (atLeast : ol.blocks ≤ l.blocks) (notNull : p ≠ 0)
    (list : FreeList ol p memory h.first indices tagged)
    (sorted : h.sorted → indices.Pairwise (· < ·))
    (used : h.used = ol.blocks - (freeSet ol.blocks indices tagged).card) (n : Nat) :
    GrowsAt bvLength ol l p n h memory (freeSet ol.blocks indices tagged) ↔
      (tagged = true ∨ ol.blocks < l.blocks) ∧ (n ≠ p → h.sorted = false →
        (ol.blocks < l.blocks →
          ol.blocks - 1 ∈ freeSet ol.blocks indices tagged ∧ 1 < ol.blocks) ∧
        (tagged = false → ol.blocks ≠ 8 * bvByteLength bvLength ol.blocks)) := by
  by_cases isMoved : n = p
  · rw [isMoved, baGrowPage_stays oldValid valid sameSize atLeast notNull list sorted used]
    exact (and_iff_left fun moved => absurd rfl moved).symm
  · rw [baGrowPage_moves oldValid valid positive sameSize atLeast notNull isMoved list sorted used,
      forall_prop_of_true isMoved]

/-- A page of four blocks, of which three are free, grows to eight. -/
theorem baGrowPage_grows_four :
    GrowsAt 32 ⟨64, 8, 4⟩ ⟨96, 8, 8⟩ 1000 2000 ⟨1048, 1, false⟩ (fun _ => 1)
      (freeSet 4 [1] true) :=
  (@baGrowPage_grows_iff ⟨96, 8, 8⟩ ⟨64, 8, 4⟩ 1000 32 (fun _ => 1) [1] true ⟨1048, 1, false⟩
    ⟨rfl, by decide, by decide⟩ ⟨rfl, by decide, by decide⟩ (by decide) rfl (by decide) (by decide)
    ⟨⟨rfl, rfl⟩, by decide, by decide, fun _ => ⟨[], 1, rfl, by decide⟩⟩ (by decide) (by decide)
    2000).mpr (by decide)

/-- A drained page of four blocks that were not freed in order loses its new blocks. -/
theorem baGrowPage_loses_new_blocks :
    Describes ⟨64, 8, 4⟩ 1000 (fun _ => 0) ⟨0, 4, false⟩ ∅ ∧
      ¬ GrowsAt 32 ⟨64, 8, 4⟩ ⟨96, 8, 8⟩ 1000 2000 ⟨0, 4, false⟩ (fun _ => 0) ∅ := by
  have list : FreeList ⟨64, 8, 4⟩ 1000 (fun _ => 0) 0 [] false :=
    ⟨rfl, by decide, by decide, fun impossible => by cases impossible⟩
  have isEmpty : freeSet 4 [] false = ∅ := by decide
  refine ⟨⟨⟨[], false, list, isEmpty, fun _ => List.Pairwise.nil⟩, by decide⟩, ?_⟩
  intro grows
  have condition := (@baGrowPage_moves ⟨96, 8, 8⟩ ⟨64, 8, 4⟩ 1000 2000 32 (fun _ => 0) [] false
    ⟨0, 4, false⟩ ⟨rfl, by decide, by decide⟩ ⟨rfl, by decide, by decide⟩ (by decide) rfl (by decide)
    (by decide) (by decide) list (by decide) (by decide)).mp (isEmpty.symm ▸ grows)
  exact absurd condition (by decide)

end MallocSurvey.Gjalloc
