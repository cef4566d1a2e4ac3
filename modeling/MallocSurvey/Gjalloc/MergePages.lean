import MallocSurvey.Gjalloc.Merged
import Mathlib.Data.List.Sort

/-! # What merging achieves

Both pages are listed in ascending order, and the live blocks of the source go to the free
blocks of the destination one by one. -/

namespace MallocSurvey.Gjalloc

variable {l : Layout} {p p1 p2 freeBlock : Nat} {memory : Words} {indices : List Nat}
  {tagged : Bool}

/-! ## All chunks -/

theorem mergeChunk_spec (valid : l.Valid) (apart : Apart l p1 p2) {start stop : Nat}
    (list : FreeList l p1 memory freeBlock indices tagged) (sorted : indices.Pairwise (· < ·))
    (order : start < stop) (isSource : stop ≤ l.blocks)
    (isEnough : stop - start ≤ (freeBlocks l.blocks indices tagged).length) :
    ChunkMerged l p1 p2 start (stop - start) memory indices tagged
      (mergeChunk l p1 p2 freeBlock memory (l.blockN p2 start, l.blockN p2 stop)) := by
  have bytes : ((l.blockN p2 stop : Nat) : Int) - (l.blockN p2 start : Nat) =
      (((stop - start) * l.blockSize : Nat) : Int) := by
    have isStop : stop = start + (stop - start) := by omega
    conv_lhs => rw [isStop, Layout.blockN_add]
    omega
  have notNull : freeBlock ≠ 0 := by
    rcases list.chain.first_cases with ⟨isEmpty, _⟩ | ⟨i, _, _, isBlock⟩
    · subst isEmpty
      have notTagged : tagged = false := by
        by_contra isTagged
        exact list.nonempty (by simp [Bool.eq_true_of_not_eq_false isTagged, endOf]) rfl
      rw [notTagged] at isEnough
      exact absurd isEnough (by simp [freeBlocks]; omega)
    · have above := Layout.one_lt_blockN l p1 i
      omega
  unfold mergeChunk
  dsimp only
  rw [bytes, if_neg notNull]
  by_cases isTag : memory freeBlock = baOne
  · rw [if_pos isTag]
    rcases list.chain.first_cases with ⟨isEmpty, isStop⟩ | ⟨f, rest, isCons, isBlock⟩
    · have isNull : freeBlock ≤ 1 := isStop ▸ endOf_le tagged
      rw [isEmpty] at list isEnough
      cases tagged with
      | false => exact absurd isEnough (by simp [freeBlocks]; omega)
      | true => exact absurd rfl (list.nonempty rfl)
    · subst isCons
      obtain ⟨isEmpty, isOne⟩ := list.chain.2.of_tag isTag
      subst isEmpty
      obtain rfl : tagged = true := endOf_inj (isOne.trans (rfl : baOne = endOf true))
      have inRange := list.bound f List.mem_cons_self
      have isFree := @freeBlocks_range l.blocks f 0 inRange
      rw [show [f] = List.range' f (0 + 1) from rfl, isFree, List.length_range'] at isEnough
      rw [isBlock]
      exact @inRow_spec l p1 p2 memory valid f 0 start (stop - start) (by omega) (by omega)
        inRange isEnough
  · rw [if_neg isTag]
    exact mergeRun_spec valid apart list sorted (by omega) (by omega) isEnough (by omega)

/-- One of the chunks fails when the others before it have been taken. -/
def MergeFails (blocks : Nat) (tagged : Bool) : List (Nat × Nat) → List Nat → Prop
  | [], _ => False
  | span :: rest, free =>
      (Overcopied blocks tagged free (span.2 - span.1) ∨
        tagged = true ∧ span.2 - span.1 = free.length) ∨
      MergeFails blocks tagged rest (free.drop (span.2 - span.1))

/-- The blocks of some spans. -/
def blocksOf (spans : List (Nat × Nat)) : List Nat :=
  spans.flatMap fun span => List.range' span.1 (span.2 - span.1)

theorem mergeChunks_cons (chunk : Nat × Nat) (rest : List (Nat × Nat)) :
    mergeChunks l p1 p2 (chunk :: rest) freeBlock memory =
      (mergeChunk l p1 p2 freeBlock memory chunk).bind fun (freeBlock, memory, calls) =>
        (mergeChunks l p1 p2 rest freeBlock memory).bind fun (freeBlock, memory, others) =>
          some (freeBlock, memory, calls ++ others) := rfl

/-- What all chunks leave. -/
theorem mergeChunks_spec (valid : l.Valid) (apart : Apart l p1 p2) {spans : List (Nat × Nat)}
    (list : FreeList l p1 memory freeBlock indices tagged) (sorted : indices.Pairwise (· < ·))
    (order : ∀ span ∈ spans, span.1 < span.2) (isSource : ∀ span ∈ spans, span.2 ≤ l.blocks)
    (isEnough : (blocksOf spans).length ≤ (freeBlocks l.blocks indices tagged).length) :
    (MergeFails l.blocks tagged spans (freeBlocks l.blocks indices tagged) ∧
      mergeChunks l p1 p2 (spans.map fun span => (l.blockN p2 span.1, l.blockN p2 span.2))
        freeBlock memory = none) ∨
    (¬ MergeFails l.blocks tagged spans (freeBlocks l.blocks indices tagged) ∧
      ∃ newFree newMemory calls newIndices,
        mergeChunks l p1 p2 (spans.map fun span => (l.blockN p2 span.1, l.blockN p2 span.2))
          freeBlock memory = some (newFree, newMemory, calls) ∧
        FreeList l p1 newMemory newFree newIndices tagged ∧ newIndices.Pairwise (· < ·) ∧
        freeBlocks l.blocks newIndices tagged =
          (freeBlocks l.blocks indices tagged).drop (blocksOf spans).length ∧
        Moved l p1 p2 memory newMemory calls
          ((freeBlocks l.blocks indices tagged).take (blocksOf spans).length) (blocksOf spans)
          (freeBlocks l.blocks indices tagged)) := by
  induction spans generalizing freeBlock memory indices with
  | nil =>
      refine .inr ⟨id, freeBlock, memory, [], indices, rfl, list, sorted, rfl, ?_⟩
      exact ⟨⟨[], rfl, by simp, rfl, rfl⟩, by simp [blocksOf], fun _ _ => rfl⟩
  | cons span rest induction =>
      have isBlocks : blocksOf (span :: rest) =
          List.range' span.1 (span.2 - span.1) ++ blocksOf rest := rfl
      have length : (blocksOf (span :: rest)).length =
          span.2 - span.1 + (blocksOf rest).length := by
        rw [isBlocks, List.length_append, List.length_range']
      have spanOrder := order span List.mem_cons_self
      have spanSource := isSource span List.mem_cons_self
      have merged := mergeChunk_spec valid apart list sorted spanOrder spanSource
        (by rw [length] at isEnough; omega)
      have free_lt : ∀ i ∈ freeBlocks l.blocks indices tagged, i < l.blocks :=
        fun i member => (mem_freeSet.mp (list.mem_freeBlocks.mp member)).1
      have ascending := list.freeBlocks_sorted sorted
      unfold ChunkMerged at merged
      dsimp only at merged
      by_cases fails : Overcopied l.blocks tagged (freeBlocks l.blocks indices tagged)
          (span.2 - span.1) ∨
          tagged = true ∧ span.2 - span.1 = (freeBlocks l.blocks indices tagged).length
      · rw [if_pos fails] at merged
        rw [List.map_cons, mergeChunks_cons, merged]
        exact .inl ⟨.inl fails, rfl⟩
      · rw [if_neg fails] at merged
        obtain ⟨midFree, mid, calls, midIndices, isMerge, midList, midSorted, isRest, moved⟩ :=
          merged
        have restEnough : (blocksOf rest).length ≤
            (freeBlocks l.blocks midIndices tagged).length := by
          rw [isRest, List.length_drop]
          omega
        have recursion := induction midList midSorted
          (fun other member => order other (List.mem_cons_of_mem _ member))
          (fun other member => isSource other (List.mem_cons_of_mem _ member)) restEnough
        rw [isRest] at recursion
        rw [List.map_cons, mergeChunks_cons, isMerge, Option.bind_some]
        dsimp only
        have sameFails : MergeFails l.blocks tagged (span :: rest)
            (freeBlocks l.blocks indices tagged) ↔ MergeFails l.blocks tagged rest
              ((freeBlocks l.blocks indices tagged).drop (span.2 - span.1)) := or_iff_right fails
        rw [sameFails]
        rcases recursion with ⟨restFails, isNone⟩ | ⟨restMerges, newFree, newMemory, others,
          newIndices, isSome, newList, newSorted, isLeft, restMoved⟩
        · rw [isNone]
          exact .inl ⟨restFails, rfl⟩
        · rw [isSome]
          refine .inr ⟨restMerges, newFree, newMemory, calls ++ others, newIndices, rfl, newList,
            newSorted, ?_, ?_⟩
          · rw [isLeft, List.drop_drop, length]
          · have isTake : (freeBlocks l.blocks indices tagged).take
                (blocksOf (span :: rest)).length =
                (freeBlocks l.blocks indices tagged).take (span.2 - span.1) ++
                  ((freeBlocks l.blocks indices tagged).drop (span.2 - span.1)).take
                    (blocksOf rest).length := by
              rw [length, List.take_add]
            rw [isTake, isBlocks]
            refine moved.append valid apart restMoved ?_ free_lt ?_
              (fun i member => List.mem_of_mem_drop member) ?_
            · rw [List.length_take, List.length_range', Nat.min_eq_left]
              rw [length] at isEnough
              omega
            · intro i member
              obtain ⟨other, isIn, inSpan⟩ := List.mem_flatMap.mp member
              have source := isSource other (List.mem_cons_of_mem _ isIn)
              have bounds := List.mem_range'_1.mp inSpan
              omega
            · intro i isLater isEarlier
              rw [← List.take_append_drop (span.2 - span.1)
                (freeBlocks l.blocks indices tagged)] at ascending
              have below := (List.pairwise_append.mp ascending).2.2 i isEarlier i isLater
              exact Nat.lt_irrefl _ below

/-! ## The blocks that fail -/

/-- The live block at some position ends a run, it is copied on its own, and the free block at
that position is followed by others that do not go on to the end of the page behind a tag. -/
def OvercopiedAt (blocks : Nat) (tagged : Bool) (live free : List Nat) (j : Nat) : Prop :=
  (live.getD (j - 1) 0 + 1 ≠ live.getD j 0 ∨ free.getD (j - 1) 0 + 1 ≠ free.getD j 0) ∧
    live.getD j 0 + 1 ∉ live ∧ free.getD j 0 + 1 ∈ free ∧
    ¬ (tagged = true ∧ ∀ i < blocks, free.getD j 0 ≤ i → i ∈ free)

instance (blocks : Nat) (tagged : Bool) (live free : List Nat) (j : Nat) :
    Decidable (OvercopiedAt blocks tagged live free j) := inferInstanceAs (Decidable (_ ∧ _ ∧ _))

/-- In the first run only its last block can fail. -/
theorem overcopiedAt_first {blocks s r j : Nat} {others free : List Nat} (inRun : j < r)
    (behind : ∀ i ∈ others, s + r < i) :
    OvercopiedAt blocks tagged (List.range' s r ++ others) free j ↔
      j + 1 = r ∧ Overcopied blocks tagged free r := by
  have at_ : ∀ i < r, (List.range' s r ++ others).getD i 0 = s + i := by
    intro i inRange
    rw [List.getD_append _ _ _ _ (by rw [List.length_range']; exact inRange),
      List.getD_eq_getElem _ _ (by rw [List.length_range']; exact inRange), List.getElem_range',
      Nat.one_mul]
  have ends : s + j + 1 ∉ List.range' s r ++ others ↔ j + 1 = r := by
    rw [List.mem_append, List.mem_range'_1]
    constructor
    · intro notMember
      by_contra notLast
      exact notMember (.inl ⟨by omega, by omega⟩)
    · rintro isLast (inRange | isLater)
      · omega
      · have order := behind _ isLater
        omega
  unfold OvercopiedAt Overcopied
  rw [at_ j inRun, at_ (j - 1) (by omega), ends]
  constructor
  · rintro ⟨starts, isLast, follows, notTail⟩
    have isIndex : r - 1 = j := by omega
    have isBefore : r - 2 = j - 1 := by omega
    rw [isIndex, isBefore]
    refine ⟨isLast, ?_, follows, notTail⟩
    by_cases isOne : r = 1
    · exact .inl isOne
    · exact .inr (starts.resolve_left (by omega))
  · rintro ⟨isLast, starts, follows, notTail⟩
    have isIndex : r - 1 = j := by omega
    have isBefore : r - 2 = j - 1 := by omega
    rw [isIndex, isBefore] at starts
    rw [isIndex] at follows notTail
    refine ⟨?_, isLast, follows, notTail⟩
    by_cases isOne : r = 1
    · exact .inl (by omega)
    · exact .inr (starts.resolve_left isOne)

/-- Behind the first run the positions are those of the rest. -/
theorem overcopiedAt_rest {blocks s r j : Nat} {others free : List Nat} (positive : 0 < r)
    (inRest : j < others.length) (isEnough : r + others.length ≤ free.length)
    (ascending : free.Pairwise (· < ·)) (behind : ∀ i ∈ others, s + r < i) :
    OvercopiedAt blocks tagged (List.range' s r ++ others) free (r + j) ↔
      OvercopiedAt blocks tagged others (free.drop r) j := by
  have length : (List.range' s r).length = r := List.length_range'
  have atRest : ∀ i, (List.range' s r ++ others).getD (r + i) 0 = others.getD i 0 := by
    intro i
    rw [List.getD_append_right _ _ _ _ (by omega), length, Nat.add_sub_cancel_left]
  have atFree : ∀ i, free.getD (r + i) 0 = (free.drop r).getD i 0 := by
    intro i
    rw [List.getD_eq_getElem?_getD, List.getD_eq_getElem?_getD, List.getElem?_drop]
  obtain ⟨f, isFree⟩ : ∃ f, (free.drop r).getD j 0 = f := ⟨_, rfl⟩
  have freeMember : f ∈ free.drop r := by
    rw [← isFree, List.getD_eq_getElem _ _ (by rw [List.length_drop]; omega)]
    exact List.getElem_mem _
  have liveMember : others.getD j 0 ∈ others := by
    rw [List.getD_eq_getElem _ _ inRest]
    exact List.getElem_mem _
  have liveOrder := behind _ liveMember
  have split := List.take_append_drop r free
  have freeBehind : ∀ i, f ≤ i → (i ∈ free ↔ i ∈ free.drop r) := by
    intro i order
    constructor
    · intro member
      rw [← split] at member ascending
      refine (List.mem_append.mp member).resolve_left fun isTaken => ?_
      have below := (List.pairwise_append.mp ascending).2.2 i isTaken f freeMember
      omega
    · exact List.mem_of_mem_drop
  have liveEnds : others.getD j 0 + 1 ∉ List.range' s r ++ others ↔
      others.getD j 0 + 1 ∉ others := by
    rw [List.mem_append, List.mem_range'_1, or_iff_right (by omega)]
  have starts : ((List.range' s r ++ others).getD (r + j - 1) 0 + 1 ≠ others.getD j 0 ∨
      free.getD (r + j - 1) 0 + 1 ≠ f) ↔
      (others.getD (j - 1) 0 + 1 ≠ others.getD j 0 ∨ (free.drop r).getD (j - 1) 0 + 1 ≠ f) := by
    by_cases isFirst : j = 0
    · subst isFirst
      have atLast : (List.range' s r ++ others).getD (r + 0 - 1) 0 = s + (r - 1) := by
        rw [List.getD_append _ _ _ _ (by omega), List.getD_eq_getElem _ _ (by omega),
          List.getElem_range', Nat.one_mul]
        omega
      rw [atLast]
      exact iff_of_true (.inl (by omega)) (.inl (Nat.succ_ne_self _))
    · have isBefore : r + j - 1 = r + (j - 1) := by omega
      rw [isBefore, atRest, atFree]
  unfold OvercopiedAt
  rw [atRest, atFree, isFree, liveEnds, starts, freeBehind _ (Nat.le_succ f)]
  refine and_congr_right fun _ => and_congr_right fun _ => and_congr_right fun _ =>
    not_congr (and_congr_right fun _ => ?_)
  exact forall_congr' fun i => forall_congr' fun _ => forall_congr' fun order =>
    freeBehind i order

theorem mergeFails_iff {blocks : Nat} {spans : List (Nat × Nat)} {free : List Nat}
    (order : ∀ span ∈ spans, span.1 < span.2)
    (gaps : spans.Pairwise (fun left right => left.2 < right.1))
    (isEnough : (blocksOf spans).length ≤ free.length) (ascending : free.Pairwise (· < ·)) :
    MergeFails blocks tagged spans free ↔
      (∃ j < (blocksOf spans).length, OvercopiedAt blocks tagged (blocksOf spans) free j) ∨
      tagged = true ∧ 0 < (blocksOf spans).length ∧ (blocksOf spans).length = free.length := by
  induction spans generalizing free with
  | nil =>
      refine iff_of_false id ?_
      rintro (⟨j, impossible, _⟩ | ⟨_, impossible, _⟩)
      · exact Nat.not_lt_zero j impossible
      · exact Nat.not_lt_zero 0 impossible
  | cons span rest induction =>
      obtain ⟨start, stop⟩ := span
      have positive : 0 < stop - start := Nat.sub_pos_of_lt (order _ List.mem_cons_self)
      obtain ⟨spanGaps, restGaps⟩ := List.pairwise_cons.mp gaps
      have isBlocks : blocksOf ((start, stop) :: rest) =
          List.range' start (stop - start) ++ blocksOf rest := rfl
      have length : (blocksOf ((start, stop) :: rest)).length =
          stop - start + (blocksOf rest).length := by
        rw [isBlocks, List.length_append, List.length_range']
      have behind : ∀ i ∈ blocksOf rest, start + (stop - start) < i := by
        intro i member
        obtain ⟨other, isIn, inSpan⟩ := List.mem_flatMap.mp member
        have gap := spanGaps other isIn
        have bounds := List.mem_range'_1.mp inSpan
        dsimp only at gap
        omega
      rw [length] at isEnough
      have restEnough : (blocksOf rest).length ≤ (free.drop (stop - start)).length := by
        rw [List.length_drop]
        omega
      have recursion := induction (fun other member => order other (List.mem_cons_of_mem _ member))
        restGaps restEnough (ascending.sublist (List.drop_sublist _ _))
      have first := fun j (inRun : j < stop - start) =>
        @overcopiedAt_first tagged blocks start (stop - start) j (blocksOf rest) free inRun behind
      have later := fun j (inRest : j < (blocksOf rest).length) =>
        @overcopiedAt_rest tagged blocks start (stop - start) j (blocksOf rest) free positive inRest
          isEnough ascending behind
      rw [length, isBlocks]
      unfold MergeFails
      dsimp only
      rw [recursion, List.length_drop]
      constructor
      · rintro ((isOver | ⟨isTagged, isAll⟩) | (⟨j, inRest, isOver⟩ | ⟨isTagged, someLeft, isAll⟩))
        · have isLast : stop - start - 1 < stop - start := by omega
          exact .inl ⟨stop - start - 1, by omega, (first _ isLast).mpr ⟨Nat.sub_add_cancel positive, isOver⟩⟩
        · exact .inr ⟨isTagged, by omega, by omega⟩
        · exact .inl ⟨stop - start + j, by omega, (later j inRest).mpr isOver⟩
        · exact .inr ⟨isTagged, by omega, by omega⟩
      · rintro (⟨j, inRange, isOver⟩ | ⟨isTagged, _, isAll⟩)
        · by_cases inRun : j < stop - start
          · exact .inl (.inl ((first j inRun).mp isOver).2)
          · have isLater : j = stop - start + (j - (stop - start)) := by omega
            have inRest : j - (stop - start) < (blocksOf rest).length := by omega
            rw [isLater] at isOver
            exact .inr (.inl ⟨_, inRest, (later _ inRest).mp isOver⟩)
        · by_cases isLast : (blocksOf rest).length = 0
          · exact .inl (.inr ⟨isTagged, by omega⟩)
          · exact .inr (.inr ⟨isTagged, by omega, by omega⟩)

/-! ## The whole function -/

/-- The free blocks of a page in ascending order. -/
def freeInOrder (blocks : Nat) (free : Finset Nat) : List Nat :=
  (List.range blocks).filter fun i => i ∈ free

/-- What merging a page into another one has to achieve. -/
structure Merged (l : Layout) (p1 p2 : Nat) (memory : Words) (free1 free2 : Finset Nat)
    (h1 h2 : PageHeader) (newMemory : Words) (calls : List Relocation) (targets : List Nat) :
    Prop where
  relocates : Relocates l p1 p2 calls targets (liveBlocks l.blocks free2)
  distinct : targets.Nodup
  wasFree : ∀ i ∈ targets, i ∈ free1
  copied : ∀ pair ∈ targets.zip (liveBlocks l.blocks free2), ∀ cell < l.blockSize,
    newMemory (l.blockN p1 pair.1 + cell) = memory (l.blockN p2 pair.2 + cell)
  kept : ∀ i < l.blocks, i ∉ free1 → ∀ cell < l.blockSize,
    newMemory (l.blockN p1 i + cell) = memory (l.blockN p1 i + cell)
  frame : ∀ place, (∀ i < l.blocks, ¬ InBlock l p1 i place ∧ ¬ InBlock l p2 i place) →
    newMemory place = memory place
  remaining : Describes l p1 newMemory h1 (free1 \ targets.toFinset)
  emptied : Describes l p2 newMemory h2 (Finset.range l.blocks)

/-- `ba_merge_pages` returns and achieves this. -/
def MergesPages (bvLength : Nat) (l : Layout) (p1 p2 : Nat) (h1 h2 : PageHeader)
    (memory : Words) (free1 free2 : Finset Nat) : Prop :=
  ∃ newHeader1 newHeader2 newMemory calls targets,
    baMergePages bvLength l p1 p2 h1 h2 memory =
      some (newHeader1, newHeader2, newMemory, calls) ∧
    Merged l p1 p2 memory free1 free2 newHeader1 newHeader2 newMemory calls targets

theorem FreeList.freeBlocks_eq (list : FreeList l p memory freeBlock indices tagged)
    (sorted : indices.Pairwise (· < ·)) :
    freeBlocks l.blocks indices tagged =
      freeInOrder l.blocks (freeSet l.blocks indices tagged) := by
  have ascending : (freeInOrder l.blocks (freeSet l.blocks indices tagged)).Pairwise (· < ·) :=
    List.pairwise_lt_range.filter _
  refine (list.freeBlocks_sorted sorted).eq_of_mem_iff ascending fun i => ?_
  rw [list.mem_freeBlocks, freeInOrder, List.mem_filter, List.mem_range, decide_eq_true_eq]
  exact ⟨fun isFree => ⟨(mem_freeSet.mp isFree).1, isFree⟩, And.right⟩

theorem FreeList.congr {other : Words} (list : FreeList l p memory freeBlock indices tagged)
    (same : ∀ i ∈ freeSet l.blocks indices tagged,
      other (l.blockN p i) = memory (l.blockN p i)) :
    FreeList l p other freeBlock indices tagged :=
  ⟨list.chain.congr fun i member => same i (list.mem_free member), list.bound, list.nodup, list.tag⟩

theorem length_liveBlocks {blocks : Nat} {free : Finset Nat} (inRange : ∀ i ∈ free, i < blocks) :
    (liveBlocks blocks free).length = blocks - free.card := by
  have nodup : (liveBlocks blocks free).Nodup := List.nodup_range.filter _
  have isDiff : (liveBlocks blocks free).toFinset = Finset.range blocks \ free := by
    ext i
    rw [List.mem_toFinset, liveBlocks, List.mem_filter, List.mem_range, decide_eq_true_eq,
      Finset.mem_sdiff, Finset.mem_range]
  have subset : free ⊆ Finset.range blocks := fun i isFree => Finset.mem_range.mpr (inRange i isFree)
  rw [← List.toFinset_card_of_nodup nodup, isDiff, Finset.card_sdiff_of_subset subset,
    Finset.card_range]

/-- All blocks of a page that has been emptied are free. -/
theorem baFreePage_spec (valid : l.Valid) (memory : Words) :
    ∃ h, baFreePage l p memory = some (h, Function.update memory (l.blockN p 0) baOne) ∧
      Describes l p (Function.update memory (l.blockN p 0) baOne) h (Finset.range l.blocks) := by
  refine ⟨⟨l.blockN p 0, 0, true⟩, ?_, ⟨[0], true, ⟨⟨rfl, Function.update_self ..⟩, ?_,
    List.nodup_singleton _, fun _ => ⟨[], 0, rfl, fun i member => by cases member⟩⟩, ?_,
    fun _ => List.pairwise_singleton _ _⟩, ?_⟩
  · rw [baFreePage, storeNext, if_pos (Layout.blockN_inside valid valid.blocks)]
    rfl
  · exact fun i member => List.mem_singleton.mp member ▸ valid.blocks
  · ext i
    rw [mem_freeSet, Finset.mem_range]
    exact ⟨And.left, fun inRange => ⟨inRange, .inr ⟨rfl, 0, rfl, Nat.zero_le i⟩⟩⟩
  · rw [Finset.card_range, Nat.sub_self]

theorem baMergePages_eq {bvLength : Nat} {h1 h2 sorted1 sorted2 : PageHeader}
    {memory1 memory2 : Words} {chunks : List (Nat × Nat)}
    (isSort1 : baSort bvLength l p1 h1 memory = some (sorted1, memory1))
    (enough : sorted1.used + h2.used ≤ l.blocks)
    (isSort2 : baSort bvLength l p2 h2 memory1 = some (sorted2, memory2))
    (sameUsed : sorted2.used = h2.used)
    (isWalk : walkChunks l p2 sorted2.first memory2 = some chunks) :
    baMergePages bvLength l p1 p2 h1 h2 memory =
      (mergeChunks l p1 p2 chunks sorted1.first memory2).bind fun (freeBlock, memory, calls) =>
        (baFreePage l p2 memory).bind fun (h2', memory) =>
          some (⟨if sorted1.used + h2.used = l.blocks then 0 else freeBlock,
            sorted1.used + h2.used, sorted1.sorted⟩, h2', memory, calls) := by
  rw [baMergePages, isSort1]
  dsimp only [Option.bind_eq_bind, Option.bind_some]
  rw [if_neg (Nat.not_lt.mpr enough), isSort2]
  dsimp only [Option.bind_some]
  rw [isWalk, sameUsed]
  rfl

/-- A list has a tag after sorting. -/
def tagAfterSort (blocks : Nat) (h : PageHeader) (tagged : Bool) (free : Finset Nat) : Bool :=
  if h.sorted then tagged else blocks - 1 ∈ free ∧ 1 < blocks

/-- Links of one page are no cells of the other. -/
theorem Apart.blockN_ne (valid : l.Valid) (apart : Apart l p1 p2) {i j cell : Nat}
    (iRange : i < l.blocks) (jRange : j < l.blocks) (inside : cell < l.blockSize) :
    l.blockN p2 j + cell ≠ l.blockN p1 i := by
  intro same
  refine apart.not_inBlock valid iRange jRange inside ⟨Nat.le_of_eq same.symm, ?_⟩
  rw [same]
  exact Nat.lt_add_of_pos_right valid.blockSize_pos

theorem Apart.symm (apart : Apart l p1 p2) : Apart l p2 p1 := Or.symm apart

/-- The first blocks of a list in order are taken from a set. -/
theorem mem_drop_iff {free : List Nat} (ascending : free.Pairwise (· < ·)) {n i : Nat} :
    i ∈ free.drop n ↔ i ∈ free ∧ i ∉ free.take n := by
  have split := List.take_append_drop n free
  constructor
  · intro isLater
    refine ⟨List.mem_of_mem_drop isLater, fun isTaken => ?_⟩
    rw [← split] at ascending
    exact Nat.lt_irrefl i ((List.pairwise_append.mp ascending).2.2 i isTaken i isLater)
  · rintro ⟨isIn, notTaken⟩
    rw [← split] at isIn
    exact (List.mem_append.mp isIn).resolve_left notTaken

/-- A list without free blocks has no first block. -/
theorem FreeList.first_eq_zero (list : FreeList l p memory freeBlock indices tagged)
    (isEmpty : freeBlocks l.blocks indices tagged = []) : freeBlock = 0 := by
  have noMember : indices = [] := by
    rw [List.eq_nil_iff_forall_not_mem]
    intro i member
    have isFree := list.mem_freeBlocks.mpr (list.mem_free member)
    rw [isEmpty] at isFree
    cases isFree
  subst noMember
  cases tagged with
  | false => exact list.chain
  | true => exact absurd rfl (list.nonempty rfl)

theorem baMergePages_merges_iff {bvLength : Nat} {h1 h2 : PageHeader}
    {indices1 indices2 : List Nat} {tagged1 tagged2 : Bool} (valid : l.Valid)
    (positive : 0 < bvLength) (apart : Apart l p1 p2)
    (list1 : FreeList l p1 memory h1.first indices1 tagged1)
    (isSorted1 : h1.sorted → indices1.Pairwise (· < ·))
    (used1 : h1.used = l.blocks - (freeSet l.blocks indices1 tagged1).card)
    (list2 : FreeList l p2 memory h2.first indices2 tagged2)
    (isSorted2 : h2.sorted → indices2.Pairwise (· < ·))
    (used2 : h2.used = l.blocks - (freeSet l.blocks indices2 tagged2).card)
    (enough : h1.used + h2.used ≤ l.blocks) :
    let free1 := freeSet l.blocks indices1 tagged1
    let free2 := freeSet l.blocks indices2 tagged2
    let tag := tagAfterSort l.blocks h1 tagged1 free1
    MergesPages bvLength l p1 p2 h1 h2 memory free1 free2 ↔
      (∀ j < h2.used, ¬ OvercopiedAt l.blocks tag (liveBlocks l.blocks free2)
        (freeInOrder l.blocks free1) j) ∧
      ¬ (tag = true ∧ 0 < h2.used ∧ h1.used + h2.used = l.blocks) := by
  intro free1 free2 tag
  have free1_lt : ∀ i ∈ free1, i < l.blocks := fun i isFree => (mem_freeSet.mp isFree).1
  have free2_lt : ∀ i ∈ free2, i < l.blocks := fun i isFree => (mem_freeSet.mp isFree).1
  -- both lists are sorted
  obtain ⟨sortedHeader1, memory1, sorted1, newTagged, isSort1, sameUsed1, isFlag1, sortedList1,
    ascending1, sameFree1, tagIff, frame1⟩ := list1.baSort valid positive isSorted1
  have isTag : newTagged = tag := by
    rw [Bool.eq_iff_iff, tagIff]
    show _ ↔ tagAfterSort l.blocks h1 tagged1 free1 = true
    unfold tagAfterSort
    split
    · rfl
    · exact decide_eq_true_iff.symm
  have keeps1 : ∀ i < l.blocks, ∀ cell < l.blockSize,
      memory1 (l.blockN p2 i + cell) = memory (l.blockN p2 i + cell) :=
    fun i inRange cell inside => frame1 _ fun j isFree =>
      apart.blockN_ne valid (free1_lt j isFree) inRange inside
  have list2' : FreeList l p2 memory1 h2.first indices2 tagged2 :=
    list2.congr fun i isFree => keeps1 i (free2_lt i isFree) 0 valid.blockSize_pos
  obtain ⟨sortedHeader2, memory2, sorted2, newTagged2, isSort2, sameUsed2, _, sortedList2,
    ascending2, sameFree2, _, frame2⟩ := list2'.baSort valid positive isSorted2
  have keeps2 : ∀ i < l.blocks, ∀ cell < l.blockSize,
      memory2 (l.blockN p1 i + cell) = memory1 (l.blockN p1 i + cell) :=
    fun i inRange cell inside => frame2 _ fun j isFree =>
      apart.symm.blockN_ne valid (free2_lt j isFree) inRange inside
  have sortedList1' : FreeList l p1 memory2 sortedHeader1.first sorted1 newTagged :=
    sortedList1.congr fun i isFree =>
      keeps2 i (mem_freeSet.mp isFree).1 0 valid.blockSize_pos
  -- the chunks of the source are its runs of live blocks
  obtain ⟨chunks, isWalk, spans, isSpans, order, gaps, isLive⟩ :=
    sortedList2.walkChunks valid ascending2
  rw [sameFree2] at isLive
  have isLive : blocksOf spans = liveBlocks l.blocks free2 := isLive
  have liveLength : (blocksOf spans).length = h2.used := by
    rw [isLive, length_liveBlocks free2_lt, used2]
  have isFree := sortedList1'.freeBlocks_eq ascending1
  rw [sameFree1] at isFree
  have freeLength := sortedList1'.freeBlocks_length ascending1
  rw [sameFree1] at freeLength
  have cardLe : free1.card ≤ l.blocks := by
    have subset : free1 ⊆ Finset.range l.blocks :=
      fun i isIn => Finset.mem_range.mpr (free1_lt i isIn)
    have card := Finset.card_le_card subset
    rwa [Finset.card_range] at card
  have inSource : ∀ span ∈ spans, span.2 ≤ l.blocks := by
    intro span member
    have positiveSpan := order span member
    have isLast : span.2 - 1 ∈ blocksOf spans :=
      List.mem_flatMap.mpr ⟨span, member, List.mem_range'_1.mpr ⟨by omega, by omega⟩⟩
    rw [isLive, liveBlocks, List.mem_filter, List.mem_range] at isLast
    omega
  have isEnough : (blocksOf spans).length ≤ (freeBlocks l.blocks sorted1 newTagged).length := by
    have sameCard : free1 = freeSet l.blocks indices1 tagged1 := rfl
    rw [freeLength, liveLength]
    rw [← sameCard] at used1 ⊢
    omega
  have merged := mergeChunks_spec valid apart sortedList1' ascending1 order inSource isEnough
  have allTaken : h2.used = free1.card ↔ h1.used + h2.used = l.blocks := by
    have isUsed : h1.used = l.blocks - free1.card := used1
    omega
  have failsIff : MergeFails l.blocks newTagged spans (freeBlocks l.blocks sorted1 newTagged) ↔
      (∃ j < h2.used, OvercopiedAt l.blocks tag (liveBlocks l.blocks free2)
        (freeInOrder l.blocks free1) j) ∨
      tag = true ∧ 0 < h2.used ∧ h1.used + h2.used = l.blocks := by
    rw [mergeFails_iff order gaps isEnough (sortedList1'.freeBlocks_sorted ascending1), liveLength,
      freeLength, isLive, isFree, isTag]
    exact or_congr_right (and_congr_right fun _ => and_congr_right fun _ => allTaken)
  have isMerge := baMergePages_eq isSort1 (sameUsed1 ▸ enough) isSort2 sameUsed2 isWalk
  rw [isSpans] at isMerge
  rcases merged with ⟨fails, isNone⟩ | ⟨noFail, newFree, memory3, calls, newIndices, isSome, newList,
    newSorted, isRest, moved⟩
  · rw [isNone] at isMerge
    refine iff_of_false ?_ ?_
    · rintro ⟨_, _, _, _, _, isResult, _⟩
      rw [isMerge] at isResult
      cases isResult
    · rintro ⟨noOver, notFull⟩
      rcases failsIff.mp fails with ⟨j, inRange, isOver⟩ | isFull
      · exact noOver j inRange isOver
      · exact notFull isFull
  · have holds : (∀ j < h2.used, ¬ OvercopiedAt l.blocks tag (liveBlocks l.blocks free2)
        (freeInOrder l.blocks free1) j) ∧
        ¬ (tag = true ∧ 0 < h2.used ∧ h1.used + h2.used = l.blocks) :=
      ⟨fun j inRange isOver => noFail (failsIff.mpr (.inl ⟨j, inRange, isOver⟩)),
        fun isFull => noFail (failsIff.mpr (.inr isFull))⟩
    refine iff_of_true ?_ holds
    obtain ⟨emptied, isFreePage, describes2⟩ := @baFreePage_spec l p2 valid memory3
    rw [isSome, Option.bind_some] at isMerge
    dsimp only at isMerge
    rw [isFreePage, Option.bind_some, sameUsed1] at isMerge
    dsimp only at isMerge
    rw [liveLength, isFree] at isRest
    rw [liveLength, isFree, isLive] at moved
    have ascendingFree : (freeInOrder l.blocks free1).Pairwise (· < ·) :=
      List.pairwise_lt_range.filter _
    have inFree : ∀ i, i ∈ freeInOrder l.blocks free1 ↔ i ∈ free1 := by
      intro i
      rw [← isFree, sortedList1'.mem_freeBlocks, sameFree1]
    have takenFree : ∀ i ∈ (freeInOrder l.blocks free1).take h2.used, i ∈ free1 :=
      fun i isTaken => (inFree i).mp (List.mem_of_mem_take isTaken)
    have nodup : ((freeInOrder l.blocks free1).take h2.used).Nodup :=
      (ascendingFree.imp Nat.ne_of_lt).sublist (List.take_sublist _ _)
    have headKept : ∀ i < l.blocks, ∀ cell < l.blockSize,
        Function.update memory3 (l.blockN p2 0) baOne (l.blockN p1 i + cell) =
          memory3 (l.blockN p1 i + cell) := fun i inRange cell inside =>
      Function.update_of_ne (apart.symm.blockN_ne valid valid.blocks inRange inside) _ _
    have rest : freeSet l.blocks newIndices newTagged =
        free1 \ ((freeInOrder l.blocks free1).take h2.used).toFinset := by
      ext i
      rw [← newList.mem_freeBlocks, isRest, mem_drop_iff ascendingFree, inFree, Finset.mem_sdiff,
        List.mem_toFinset]
    have finalList : FreeList l p1 (Function.update memory3 (l.blockN p2 0) baOne)
        (if h1.used + h2.used = l.blocks then 0 else newFree) newIndices newTagged := by
      have isFirst : (if h1.used + h2.used = l.blocks then 0 else newFree) = newFree := by
        split
        · next isFull =>
            refine (newList.first_eq_zero ?_).symm
            rw [isRest, List.drop_eq_nil_iff, ← isFree, freeLength]
            exact Nat.le_of_eq (allTaken.mpr isFull).symm
        · rfl
      rw [isFirst]
      exact newList.congr fun i isIn =>
        headKept i (mem_freeSet.mp isIn).1 0 valid.blockSize_pos
    refine ⟨_, _, _, _, (freeInOrder l.blocks free1).take h2.used, isMerge, ?_⟩
    refine ⟨moved.calls, nodup, takenFree, ?_, ?_, ?_,
      ⟨⟨newIndices, newTagged, finalList, rest, fun _ => newSorted⟩, ?_⟩, describes2⟩
    · intro pair member cell inside
      obtain ⟨isTarget, isSource⟩ := List.of_mem_zip member
      rw [liveBlocks, List.mem_filter, List.mem_range, decide_eq_true_eq] at isSource
      rw [headKept _ (free1_lt _ (takenFree _ isTarget)) _ inside,
        moved.contents pair member cell inside, frame2 _ fun j isIn => ?_,
        keeps1 _ isSource.1 _ inside]
      exact Layout.cell_ne (fun same => isSource.2 (same ▸ isIn)) inside
    · intro i inRange isLive cell inside
      rw [headKept i inRange cell inside, moved.frame, keeps2 i inRange cell inside,
        frame1 _ fun j isIn => ?_]
      · exact Layout.cell_ne (fun same => isLive (same ▸ isIn)) inside
      · intro j isIn inBlock
        have same := inBlock.unique (inBlock_cell inside)
        exact isLive (same ▸ (inFree j).mp isIn)
    · intro place outside
      have notLink : ∀ j < l.blocks, place ≠ l.blockN p1 j ∧ place ≠ l.blockN p2 j := by
        intro j inRange
        obtain ⟨outside1, outside2⟩ := outside j inRange
        constructor
        · rintro rfl
          exact outside1 (inBlock_cell valid.blockSize_pos)
        · rintro rfl
          exact outside2 (inBlock_cell valid.blockSize_pos)
      rw [Function.update_of_ne (notLink 0 valid.blocks).2, moved.frame,
        frame2 _ fun j isIn => (notLink j (free2_lt j isIn)).2,
        frame1 _ fun j isIn => (notLink j (free1_lt j isIn)).1]
      exact fun j isIn => (outside j (free1_lt j ((inFree j).mp isIn))).1
    · have subset : ((freeInOrder l.blocks free1).take h2.used).toFinset ⊆ free1 :=
        fun i isIn => takenFree i (List.mem_toFinset.mp isIn)
      have taken : ((freeInOrder l.blocks free1).take h2.used).length = h2.used := by
        rw [List.length_take, ← isFree, freeLength]
        have isUsed : h1.used = l.blocks - free1.card := used1
        omega
      have isUsed : h1.used = l.blocks - free1.card := used1
      rw [Finset.card_sdiff_of_subset subset, List.toFinset_card_of_nodup nodup, taken]
      dsimp only
      omega

/-- Two pages of four blocks with one live block each. -/
theorem baMergePages_merges_four :
    MergesPages 32 ⟨64, 8, 4⟩ 1000 2000 ⟨1048, 1, true⟩ ⟨2048, 1, true⟩ (fun _ => 1)
      (freeSet 4 [1] true) (freeSet 4 [1] true) :=
  (@baMergePages_merges_iff ⟨64, 8, 4⟩ 1000 2000 (fun _ => 1) 32 ⟨1048, 1, true⟩ ⟨2048, 1, true⟩
    [1] [1] true true ⟨rfl, by decide, by decide⟩ (by decide) (by unfold Apart; decide)
    ⟨⟨rfl, rfl⟩, by decide, by decide, fun _ => ⟨[], 1, rfl, by decide⟩⟩ (by decide) (by decide)
    ⟨⟨rfl, rfl⟩, by decide, by decide, fun _ => ⟨[], 1, rfl, by decide⟩⟩ (by decide) (by decide)
    (by decide)).mpr (by decide)

/-- A single live block goes to a page whose first three blocks are free one by one. -/
theorem baMergePages_copies_too_much : ∃ memory : Words,
    Describes ⟨64, 8, 4⟩ 1000 memory ⟨1040, 1, true⟩ {0, 1, 2} ∧
    Describes ⟨64, 8, 4⟩ 2000 memory ⟨2048, 1, true⟩ {1, 2, 3} ∧
    ¬ MergesPages 32 ⟨64, 8, 4⟩ 1000 2000 ⟨1040, 1, true⟩ ⟨2048, 1, true⟩ memory
      {0, 1, 2} {1, 2, 3} := by
  refine ⟨fun place => if place = 1040 then 1048 else if place = 1048 then 1056 else
    if place = 2048 then 1 else 0, ⟨⟨[0, 1, 2], false, ⟨⟨rfl, rfl, rfl, rfl⟩, by decide, by decide,
      fun impossible => by cases impossible⟩, by decide, by decide⟩, by decide⟩,
    ⟨⟨[1], true, ⟨⟨rfl, rfl⟩, by decide, by decide, fun _ => ⟨[], 1, rfl, by decide⟩⟩, by decide,
      by decide⟩, by decide⟩, ?_⟩
  rintro ⟨_, _, _, _, _, isResult, _⟩
  have isNone : (baMergePages 32 ⟨64, 8, 4⟩ 1000 2000 ⟨1040, 1, true⟩ ⟨2048, 1, true⟩ (fun place =>
      if place = 1040 then 1048 else if place = 1048 then 1056 else
        if place = 2048 then 1 else 0)).isNone = true := by decide +kernel
  rw [isResult] at isNone
  cases isNone

end MallocSurvey.Gjalloc
