import MallocSurvey.Gjalloc.Merging
import Mathlib.Data.List.GetD

/-! # Merged pages

A run of one live block is compared with the number of free blocks in a row only when there
are two of them already. -/

namespace MallocSurvey.Gjalloc

variable {l : Layout} {p p1 p2 first fuel freeBlock : Nat} {memory : Words} {indices : List Nat}
  {tagged : Bool}

/-- A loop with less than nothing to do never returns. -/
theorem mergeRun_negative {start : Nat} {bytes : Int} (negative : bytes < 0) :
    mergeRun l p1 p2 fuel freeBlock start bytes memory = none := by
  induction fuel generalizing freeBlock start bytes memory with
  | zero => rfl
  | succ fuel induction =>
      rw [mergeRun]
      split
      · rfl
      · cases scanRun l memory bytes (l.blocks + 1) freeBlock l.blockSize with
        | none => rfl
        | some scanned =>
            obtain ⟨tmp, freeBytes⟩ := scanned
            dsimp only [Option.bind_eq_bind, Option.bind_some]
            split
            · rw [inRow, relocateChunk, if_neg (fun bounds => absurd bounds.1 (by omega))]
              rfl
            · cases relocateChunk l p1 p2 memory freeBlock start freeBytes with
              | none => rfl
              | some relocated =>
                  obtain ⟨newMemory, call⟩ := relocated
                  dsimp only [Option.bind_some]
                  rw [if_neg (by omega), induction (by omega)]
                  rfl

/-- The last block of a run of live blocks is the first one that is copied to a run of free
blocks, more of them follow, and they do not go on to the end of the page behind a tag. -/
def Overcopied (blocks : Nat) (tagged : Bool) (free : List Nat) (r : Nat) : Prop :=
  (r = 1 ∨ free.getD (r - 2) 0 + 1 ≠ free.getD (r - 1) 0) ∧ free.getD (r - 1) 0 + 1 ∈ free ∧
    ¬ (tagged = true ∧ ∀ i < blocks, free.getD (r - 1) 0 ≤ i → i ∈ free)

instance (blocks : Nat) (tagged : Bool) (free : List Nat) (r : Nat) :
    Decidable (Overcopied blocks tagged free r) := inferInstanceAs (Decidable (_ ∧ _ ∧ _))

/-- What one chunk leaves. -/
def ChunkMerged (l : Layout) (p1 p2 start r : Nat) (memory : Words) (indices : List Nat)
    (tagged : Bool) (result : Option (Nat × Words × List Relocation)) : Prop :=
  let free := freeBlocks l.blocks indices tagged
  if Overcopied l.blocks tagged free r ∨ tagged = true ∧ r = free.length then result = none
  else ∃ freeBlock newMemory calls newIndices, result = some (freeBlock, newMemory, calls) ∧
    FreeList l p1 newMemory freeBlock newIndices tagged ∧ newIndices.Pairwise (· < ·) ∧
    freeBlocks l.blocks newIndices tagged = free.drop r ∧
    Moved l p1 p2 memory newMemory calls (free.take r) (List.range' start r) free

theorem inRow_spec (valid : l.Valid) {f n start r : Nat} (positive : 0 < r)
    (isSource : start + r ≤ l.blocks) (inRange : f + n < l.blocks)
    (isEnough : r ≤ l.blocks - f) :
    ChunkMerged l p1 p2 start r memory (List.range' f (n + 1)) true
      (inRow l p1 p2 (l.blockN p1 f) (l.blockN p2 start) ((r * l.blockSize : Nat) : Int)
        memory) := by
  have isFree := freeBlocks_range inRange
  obtain ⟨newMemory, call, isCall, moved⟩ := @relocateChunk_spec l p1 p2 memory valid f start r
    positive (by omega) isSource (List.range' f r) (fun i member => member)
  have notOver : ¬ Overcopied l.blocks true (List.range' f (l.blocks - f)) r := by
    rintro ⟨_, _, notTail⟩
    refine notTail ⟨rfl, fun i below above => ?_⟩
    have isLast : (List.range' f (l.blocks - f)).getD (r - 1) 0 = f + (r - 1) := by
      rw [List.getD_eq_getElem _ _ (by simp; omega), List.getElem_range', Nat.one_mul]
    rw [isLast] at above
    exact List.mem_range'_1.mpr ⟨by omega, by omega⟩
  have isRow : inRow l p1 p2 (l.blockN p1 f) (l.blockN p2 start) ((r * l.blockSize : Nat) : Int)
      memory = (storeNext l p1 newMemory (l.blockN p1 (f + r)) baOne).bind fun memory =>
        some (l.blockN p1 (f + r), memory, [call]) := by
    rw [inRow, isCall, Layout.blockN_add]
    rfl
  unfold ChunkMerged
  dsimp only
  rw [isFree, List.length_range', isRow]
  by_cases isAll : r = l.blocks - f
  · rw [if_pos (.inr ⟨rfl, isAll⟩), storeNext, if_neg]
    · rfl
    · rintro ⟨_, isEnd⟩
      rw [Layout.pageEnd valid, show f + r = l.blocks by omega] at isEnd
      exact absurd isEnd (by unfold blockHeaderSize; omega)
  · rw [if_neg (not_or.mpr ⟨notOver, fun both => isAll both.2⟩)]
    have inPage : f + r < l.blocks := by omega
    refine ⟨l.blockN p1 (f + r), Function.update newMemory (l.blockN p1 (f + r)) baOne, [call],
      [f + r], ?_, ?_, List.pairwise_singleton _ _, ?_, ?_⟩
    · rw [storeNext, if_pos (Layout.blockN_inside valid inPage)]
      rfl
    · refine ⟨⟨rfl, Function.update_self ..⟩, ?_, List.nodup_singleton _,
        fun _ => ⟨[], f + r, rfl, fun i member => by cases member⟩⟩
      exact fun i member => List.mem_singleton.mp member ▸ inPage
    · have single := @freeBlocks_range l.blocks (f + r) 0 inPage
      rw [show [f + r] = List.range' (f + r) (0 + 1) from rfl, single, List.drop_range',
        Nat.mul_one, Nat.sub_sub]
    · rw [List.take_range'_of_length_ge isEnough]
      refine ⟨moved.calls, ?_, ?_⟩
      · intro pair member cell inside
        rw [← moved.contents pair member cell inside]
        refine Function.update_of_ne (Layout.cell_ne (fun same => ?_) inside) _ _
        have isTarget := (List.of_mem_zip member).1
        rw [same, List.mem_range'_1] at isTarget
        omega
      · intro place outside
        have notTag : place ≠ l.blockN p1 (f + r) := by
          rintro rfl
          refine outside (f + r) (List.mem_range'_1.mpr ⟨by omega, by omega⟩) ?_
          exact inBlock_cell valid.blockSize_pos
        rw [Function.update_of_ne notTag]
        refine moved.frame place fun i member => outside i ?_
        rw [List.mem_range'_1] at member ⊢
        omega

/-! ## A chunk -/

/-- Behind a run that is used up only the others count. -/
theorem overcopied_append {blocks f n r : Nat} {others : List Nat} (more : n + 1 < r)
    (isEnough : r ≤ n + 1 + others.length) (above : ∀ i ∈ others, f + n + 1 < i) :
    Overcopied blocks tagged (List.range' f (n + 1) ++ others) r ↔
      Overcopied blocks tagged others (r - (n + 1)) := by
  have length : (List.range' f (n + 1)).length = n + 1 := List.length_range'
  have atLast : (List.range' f (n + 1) ++ others).getD (r - 1) 0 =
      others.getD (r - (n + 1) - 1) 0 := by
    rw [List.getD_append_right _ _ _ _ (by omega), length]
    congr 1
    omega
  have isMember : others.getD (r - (n + 1) - 1) 0 ∈ others := by
    rw [List.getD_eq_getElem _ _ (by omega)]
    exact List.getElem_mem _
  obtain ⟨last, isLast⟩ : ∃ last, others.getD (r - (n + 1) - 1) 0 = last := ⟨_, rfl⟩
  rw [isLast] at isMember atLast
  have lastAbove := above last isMember
  have behind : ∀ i, last ≤ i → (i ∈ List.range' f (n + 1) ++ others ↔ i ∈ others) := by
    intro i order
    rw [List.mem_append, List.mem_range'_1]
    exact or_iff_right (by omega)
  have startsPiece : (r = 1 ∨ (List.range' f (n + 1) ++ others).getD (r - 2) 0 + 1 ≠ last) ↔
      (r - (n + 1) = 1 ∨ others.getD (r - (n + 1) - 2) 0 + 1 ≠ last) := by
    by_cases isOne : r - (n + 1) = 1
    · have atEnd : (List.range' f (n + 1) ++ others).getD (r - 2) 0 = f + n := by
        rw [List.getD_append _ _ _ _ (by omega), List.getD_eq_getElem _ _ (by omega),
          List.getElem_range', Nat.one_mul]
        omega
      rw [atEnd]
      exact iff_of_true (.inr (by omega)) (.inl isOne)
    · have isBefore : (List.range' f (n + 1) ++ others).getD (r - 2) 0 =
          others.getD (r - (n + 1) - 2) 0 := by
        rw [List.getD_append_right _ _ _ _ (by omega), length]
        congr 1
        omega
      rw [isBefore, or_iff_right (show r ≠ 1 by omega), or_iff_right isOne]
  unfold Overcopied
  rw [atLast, isLast, startsPiece, behind _ (by omega)]
  refine and_congr_right fun _ => and_congr_right fun _ => not_congr (and_congr_right fun _ => ?_)
  exact forall_congr' fun i => forall_congr' fun _ => forall_congr' fun order => behind i order

/-- Within a run of free blocks the last live block is not the first that is copied, unless it
is the only one. -/
theorem not_overcopied {blocks f n r : Nat} {others : List Nat} (atLeastTwo : 2 ≤ r)
    (inRun : r ≤ n + 1) : ¬ Overcopied blocks tagged (List.range' f (n + 1) ++ others) r := by
  rintro ⟨startsPiece, _⟩
  have length : (List.range' f (n + 1)).length = n + 1 := List.length_range'
  rw [List.getD_append _ _ _ _ (by omega), List.getD_eq_getElem _ _ (by omega),
    List.getD_append _ _ _ _ (by omega), List.getD_eq_getElem _ _ (by omega),
    List.getElem_range', List.getElem_range'] at startsPiece
  omega

theorem mergeRun_succ {start : Nat} {bytes : Int} {tmp freeBytes : Nat} (notNull : freeBlock ≠ 0)
    (isScan : scanRun l memory bytes (l.blocks + 1) freeBlock l.blockSize =
      some (tmp, freeBytes)) :
    mergeRun l p1 p2 (fuel + 1) freeBlock start bytes memory =
      if memory tmp = baOne then inRow l p1 p2 freeBlock start bytes memory
      else (relocateChunk l p1 p2 memory freeBlock start freeBytes).bind fun (newMemory, call) =>
        if bytes - freeBytes = 0 then some (memory tmp, newMemory, [call])
        else (mergeRun l p1 p2 fuel (memory tmp) (start + freeBytes) (bytes - freeBytes)
          newMemory).bind fun (freeBlock, memory, calls) =>
            some (freeBlock, memory, call :: calls) := by
  rw [mergeRun, if_neg notNull, isScan]
  rfl

/-- The blocks that follow a run of the list stay linked when the run is overwritten. -/
theorem FreeList.rest {mid : Words} {calls : List Relocation} {sources others : List Nat}
    {f n : Nat} (valid : l.Valid)
    (list : FreeList l p1 memory freeBlock (List.range' f (n + 1) ++ others) tagged)
    (sorted : others.Pairwise (· < ·)) (nonempty : tagged = true → others ≠ [])
    (moved : Moved l p1 p2 memory mid calls (List.range' f (n + 1)) sources
      (List.range' f (n + 1))) :
    FreeList l p1 mid (memory (l.blockN p1 (f + n))) others tagged := by
  have isRange : List.range' f (n + 1) = List.range' f n ++ [f + n] := by
    rw [List.range'_concat, Nat.one_mul]
  have disjoint := List.disjoint_of_nodup_append list.nodup
  have chain := list.chain
  rw [isRange, List.append_assoc, List.singleton_append] at chain
  refine ⟨chain.after.congr ?_, fun i member => list.bound i (List.mem_append_right _ member),
    (List.nodup_append.mp list.nodup).2.1, ?_⟩
  · intro i member
    apply moved.frame
    intro j inRun inCell
    have same := @InBlock.unique l p1 j i _ inCell
      ⟨Nat.le_refl _, Nat.lt_add_of_pos_right valid.blockSize_pos⟩
    exact disjoint inRun (same ▸ member)
  · intro isTagged
    have split := List.dropLast_append_getLast (nonempty isTagged)
    rw [← split] at sorted
    refine ⟨_, _, split.symm, fun i isFront => ?_⟩
    exact (List.pairwise_append.mp sorted).2.2 i isFront _ (List.mem_singleton.mpr rfl)

/-- No free block comes before the first member of the list. -/
theorem freeBlocks_above {blocks i : Nat} (nonempty : tagged = true → indices ≠ [])
    (member : i ∈ freeBlocks blocks indices tagged) : ∃ j ∈ indices, j ≤ i := by
  cases tagged with
  | false => exact ⟨i, member, Nat.le_refl _⟩
  | true =>
      unfold freeBlocks at member
      rw [if_pos rfl, List.mem_append, List.mem_range'_1] at member
      rcases member with isFront | isTail
      · exact ⟨i, List.mem_of_mem_dropLast isFront, Nat.le_refl _⟩
      · refine ⟨indices.getLastD 0, ?_, isTail.1⟩
        rw [List.getLastD_eq_getLast?, List.getLast?_eq_some_getLast (nonempty rfl)]
        exact List.getLast_mem _

/-- One pass of the loop over a run of the list that does not end with the tag. -/
theorem mergeRun_step (valid : l.Valid) (apart : Apart l p1 p2) {start r f n : Nat}
    {others : List Nat}
    (list : FreeList l p1 memory (l.blockN p1 f) (List.range' f (n + 1) ++ others) tagged)
    (sorted : (List.range' f (n + 1) ++ others).Pairwise (· < ·))
    (nonempty : tagged = true → others ≠ []) (positive : 0 < r) (isSource : start + r ≤ l.blocks)
    (isEnough : r ≤ (freeBlocks l.blocks (List.range' f (n + 1) ++ others) tagged).length)
    (isScan : scanRun l memory ((r * l.blockSize : Nat) : Int) (l.blocks + 1) (l.blockN p1 f)
      l.blockSize = some (l.blockN p1 (f + n), (1 + n) * l.blockSize))
    (notBefore : ∀ i, 0 < i → i < n → 1 + i ≠ r)
    (isEnd : (0 < n ∧ 1 + n = r) ∨
      memory (l.blockN p1 (f + n)) ≠ l.blockN p1 (f + n + 1))
    (recursion : ∀ mid, n + 1 < r →
      FreeList l p1 mid (memory (l.blockN p1 (f + n))) others tagged →
      ChunkMerged l p1 p2 (start + (n + 1)) (r - (n + 1)) mid others tagged
        (mergeRun l p1 p2 fuel (memory (l.blockN p1 (f + n))) (l.blockN p2 (start + (n + 1)))
          (((r - (n + 1)) * l.blockSize : Nat) : Int) mid)) :
    ChunkMerged l p1 p2 start r memory (List.range' f (n + 1) ++ others) tagged
      (mergeRun l p1 p2 (fuel + 1) (l.blockN p1 f) (l.blockN p2 start)
        ((r * l.blockSize : Nat) : Int) memory) := by
  have notNull : l.blockN p1 f ≠ 0 := by
    have above := Layout.one_lt_blockN l p1 f
    omega
  have isRange : List.range' f (n + 1) = List.range' f n ++ [f + n] := by
    rw [List.range'_concat, Nat.one_mul]
  have length : (List.range' f (n + 1)).length = n + 1 := List.length_range'
  have restSorted := (List.pairwise_append.mp sorted).2.1
  have restChain : Chain l p1 memory (endOf tagged) (memory (l.blockN p1 (f + n))) others := by
    have chain := list.chain
    rw [isRange, List.append_assoc, List.singleton_append] at chain
    exact chain.after
  have notTag : memory (l.blockN p1 (f + n)) ≠ baOne := by
    intro isTag
    obtain ⟨isEmpty, isOne⟩ := restChain.of_tag isTag
    exact nonempty (endOf_inj (isOne.trans (rfl : baOne = endOf true))) isEmpty
  have behind : ∀ j ∈ others, f + n < j := fun j member =>
    (List.pairwise_append.mp sorted).2.2 (f + n) (by rw [isRange]; simp) j member
  -- unless the scan stopped at the number of live blocks the run is at its end
  have apartFrom : memory (l.blockN p1 (f + n)) ≠ l.blockN p1 (f + n + 1) →
      ∀ j ∈ others, f + n + 1 < j := by
    intro notNext j member
    have order := behind j member
    rcases restChain.first_cases with ⟨isEmpty, _⟩ | ⟨g, rest, isCons, isNext⟩
    · rw [isEmpty] at member
      cases member
    · have notFirst : g ≠ f + n + 1 := fun same => notNext (same ▸ isNext)
      have firstBehind := behind g (isCons ▸ List.mem_cons_self)
      rw [isCons] at member restSorted
      rcases List.mem_cons.mp member with isFirst | isRest
      · omega
      · have later := (List.pairwise_cons.mp restSorted).1 j isRest
        omega
  have freeApart : memory (l.blockN p1 (f + n)) ≠ l.blockN p1 (f + n + 1) →
      ∀ j ∈ freeBlocks l.blocks others tagged, f + n + 1 < j := by
    intro notNext j member
    obtain ⟨i, isIn, below⟩ := freeBlocks_above nonempty member
    exact Nat.lt_of_lt_of_le (apartFrom notNext i isIn) below
  have isFree : freeBlocks l.blocks (List.range' f (n + 1) ++ others) tagged =
      List.range' f (n + 1) ++ freeBlocks l.blocks others tagged := freeBlocks_append nonempty
  have isStep := @mergeRun_succ l p1 p2 fuel _ memory (l.blockN p2 start)
    ((r * l.blockSize : Nat) : Int) _ _ notNull isScan
  rw [if_neg notTag] at isStep
  rw [isFree, List.length_append, length] at isEnough
  have takenRun : ∀ {mid : Words} {call : Relocation},
      Moved l p1 p2 memory mid [call] (List.range' f (n + 1)) (List.range' start (n + 1))
        (List.range' f (n + 1)) →
      FreeList l p1 mid (memory (l.blockN p1 (f + n))) others tagged :=
    fun moved => list.rest valid restSorted nonempty moved
  have inFree : ∀ i ∈ List.range' f (n + 1),
      i ∈ List.range' f (n + 1) ++ freeBlocks l.blocks others tagged :=
    fun i member => List.mem_append_left _ member
  have restBound : ∀ j ∈ freeBlocks l.blocks others tagged, f + n < j ∧ j < l.blocks := by
    intro j member
    obtain ⟨i, isIn, below⟩ := freeBlocks_above nonempty member
    have isMember : j ∈ freeSet l.blocks (List.range' f (n + 1) ++ others) tagged := by
      rw [← list.mem_freeBlocks, isFree]
      exact List.mem_append_right _ member
    exact ⟨Nat.lt_of_lt_of_le (behind i isIn) below, (mem_freeSet.mp isMember).1⟩
  have lastInRange : f + n < l.blocks :=
    list.bound (f + n) (List.mem_append_left _ (by rw [isRange]; simp))
  unfold ChunkMerged
  dsimp only
  rw [isFree, isStep, List.length_append, length]
  rcases Nat.lt_trichotomy r (n + 1) with less | equal | more
  · -- a single block is not compared, and more than it is copied
    have isOne : r = 1 := by
      by_contra notOne
      exact notBefore (r - 1) (by omega) (by omega) (by omega)
    subst isOne
    have notNext := isEnd.resolve_left (by omega)
    have isOver : Overcopied l.blocks tagged
        (List.range' f (n + 1) ++ freeBlocks l.blocks others tagged) 1 := by
      have atFirst : (List.range' f (n + 1) ++ freeBlocks l.blocks others tagged).getD 0 0 = f := by
        rw [List.range'_succ]
        rfl
      unfold Overcopied
      rw [atFirst]
      refine ⟨.inl rfl, List.mem_append_left _ (List.mem_range'_1.mpr ⟨by omega, by omega⟩), ?_⟩
      rintro ⟨isTagged, allFree⟩
      obtain ⟨j, isMember⟩ := List.exists_mem_of_ne_nil _ (nonempty isTagged)
      have order := apartFrom notNext j isMember
      have inRange := list.bound j (List.mem_append_right _ isMember)
      rcases List.mem_append.mp (allFree (f + n + 1) (by omega) (by omega)) with inRun | isRest
      · rw [List.mem_range'_1] at inRun
        omega
      · exact Nat.lt_irrefl _ (freeApart notNext _ isRest)
    rw [if_pos (.inl isOver)]
    cases relocateChunk l p1 p2 memory (l.blockN p1 f) (l.blockN p2 start)
        (((1 + n) * l.blockSize : Nat) : Int) with
    | none => rfl
    | some relocated =>
        obtain ⟨newMemory, call⟩ := relocated
        have tooMany : ((1 * l.blockSize : Nat) : Int) - (((1 + n) * l.blockSize : Nat) : Int) < 0 := by
          have sizes := Nat.mul_lt_mul_of_pos_right less valid.blockSize_pos
          rw [Nat.add_comm] at sizes
          omega
        rw [Option.bind_some]
        dsimp only
        rw [if_neg (by omega), mergeRun_negative tooMany]
        rfl
  · subst equal
    obtain ⟨newMemory, call, isCall, moved⟩ := @relocateChunk_spec l p1 p2 memory valid f start
      (n + 1) positive lastInRange isSource (List.range' f (n + 1)) (fun i member => member)
    have restList := takenRun moved
    have notOver : ¬ Overcopied l.blocks tagged
        (List.range' f (n + 1) ++ freeBlocks l.blocks others tagged) (n + 1) := by
      by_cases isOne : n = 0
      · subst isOne
        have notNext := isEnd.resolve_left (by omega)
        rintro ⟨_, isIn, _⟩
        rcases List.mem_append.mp isIn with inRun | isRest
        · rw [List.mem_range'_1] at inRun
          exact absurd inRun.2 (Nat.lt_irrefl _)
        · exact Nat.lt_irrefl _ (freeApart notNext _ isRest)
      · exact not_overcopied (by omega) (Nat.le_refl _)
    have notAll : ¬ (tagged = true ∧
        n + 1 = n + 1 + (freeBlocks l.blocks others tagged).length) := by
      rintro ⟨isTagged, isAll⟩
      obtain ⟨j, isMember⟩ := List.exists_mem_of_ne_nil _ (nonempty isTagged)
      have isIn := restList.mem_freeBlocks.mpr (restList.mem_free isMember)
      have some := List.length_pos_of_mem isIn
      omega
    rw [if_neg (not_or.mpr ⟨notOver, notAll⟩), Nat.add_comm 1 n, isCall, Option.bind_some]
    dsimp only
    rw [if_pos (Int.sub_self _)]
    refine ⟨_, newMemory, [call], others, rfl, restList, restSorted, ?_, ?_⟩
    · rw [List.drop_left' length]
    · rw [List.take_left' length]
      exact moved.weaken inFree
  · have notNext := isEnd.resolve_left (by omega)
    obtain ⟨mid, call, isCall, moved⟩ := @relocateChunk_spec l p1 p2 memory valid f start
      (n + 1) (Nat.succ_pos n) lastInRange (by omega) (List.range' f (n + 1))
      (fun i member => member)
    have restList := takenRun moved
    have merged := recursion mid more restList
    have left : ((r * l.blockSize : Nat) : Int) - (((n + 1) * l.blockSize : Nat) : Int) =
        (((r - (n + 1)) * l.blockSize : Nat) : Int) := by
      have sizes := Nat.mul_le_mul_right l.blockSize (Nat.le_of_lt more)
      rw [Nat.sub_mul]
      omega
    have someLeft : (((r - (n + 1)) * l.blockSize : Nat) : Int) ≠ 0 := by
      have sizes := Nat.mul_pos (show 0 < r - (n + 1) by omega) valid.blockSize_pos
      omega
    rw [Nat.add_comm 1 n, isCall, Option.bind_some]
    dsimp only
    rw [left, if_neg someLeft, ← Layout.blockN_add]
    have sameFails := or_congr
      (@overcopied_append tagged l.blocks f n r _ more isEnough (freeApart notNext))
      (and_congr_right fun _ : tagged = true =>
        show r = n + 1 + (freeBlocks l.blocks others tagged).length ↔
          r - (n + 1) = (freeBlocks l.blocks others tagged).length by omega)
    unfold ChunkMerged at merged
    dsimp only at merged
    by_cases fails : Overcopied l.blocks tagged (freeBlocks l.blocks others tagged) (r - (n + 1)) ∨
        tagged = true ∧ r - (n + 1) = (freeBlocks l.blocks others tagged).length
    · rw [if_pos fails] at merged
      rw [if_pos (sameFails.mpr fails), merged]
      rfl
    · rw [if_neg fails] at merged
      rw [if_neg fun both => fails (sameFails.mp both)]
      obtain ⟨newFree, newMemory, calls, newIndices, isMerge, newList, newSorted, isRest,
        restMoved⟩ := merged
      rw [isMerge]
      refine ⟨newFree, newMemory, call :: calls, newIndices, rfl, newList, newSorted, ?_, ?_⟩
      · have runEnds : (List.range' f (n + 1)).length ≤ r := by omega
        rw [isRest, List.drop_append, List.drop_eq_nil_of_le runEnds, length, List.nil_append]
      · have split : List.range' start r =
            List.range' start (n + 1) ++ List.range' (start + (n + 1)) (r - (n + 1)) := by
          have joined := @List.range'_append start (n + 1) (r - (n + 1)) 1
          rw [Nat.one_mul] at joined
          rw [joined]
          congr 1
          omega
        rw [split, List.take_append, length, List.take_of_length_le (by omega)]
        refine (moved.weaken inFree).append valid apart restMoved (by simp) ?_ ?_ ?_ ?_
        · intro i member
          rcases List.mem_append.mp member with inRun | isRest
          · have inRange := (List.mem_range'_1.mp inRun).2
            omega
          · exact (restBound i isRest).2
        · intro i member
          have inRange := (List.mem_range'_1.mp member).2
          omega
        · exact fun i member => List.mem_append_right _ member
        · intro i member inRun
          have order := (restBound i member).1
          have inRange := (List.mem_range'_1.mp inRun).2
          omega

theorem mergeRun_spec (valid : l.Valid) (apart : Apart l p1 p2) {start r : Nat}
    (list : FreeList l p1 memory freeBlock indices tagged) (sorted : indices.Pairwise (· < ·))
    (positive : 0 < r) (isSource : start + r ≤ l.blocks)
    (isEnough : r ≤ (freeBlocks l.blocks indices tagged).length) (enough : r ≤ fuel) :
    ChunkMerged l p1 p2 start r memory indices tagged
      (mergeRun l p1 p2 fuel freeBlock (l.blockN p2 start) ((r * l.blockSize : Nat) : Int)
        memory) := by
  induction fuel generalizing r start freeBlock memory indices with
  | zero => omega
  | succ fuel induction =>
      have short := length_le_of_nodup list.nodup list.bound
      -- the list begins with a run of blocks, which the scan finds
      obtain ⟨f, rest, rfl⟩ : ∃ f rest, indices = f :: rest := by
        cases indices with
        | cons f rest => exact ⟨f, rest, rfl⟩
        | nil =>
            cases tagged with
            | false => exact absurd isEnough (by simp [freeBlocks]; omega)
            | true => exact absurd rfl (list.nonempty rfl)
      obtain rfl : freeBlock = l.blockN p1 f := list.chain.1
      have notNull : l.blockN p1 f ≠ 0 := by
        have above := Layout.one_lt_blockN l p1 f
        omega
      obtain ⟨n, inList, isTake, isScan, notBefore, isEnd⟩ := @scanRun_spec l p1 _ (l.blocks + 1)
        memory valid f rest list.chain (endOf_le _) (by rw [List.length_cons] at short; omega) 1 r
      rw [Nat.one_mul] at isScan
      have isStep := @mergeRun_succ l p1 p2 fuel _ memory (l.blockN p2 start)
        ((r * l.blockSize : Nat) : Int) _ _ notNull isScan
      obtain ⟨others, isOthers⟩ : ∃ others, (f :: rest).drop (n + 1) = others := ⟨_, rfl⟩
      have isList : f :: rest = List.range' f (n + 1) ++ others := by
        rw [← isTake, ← isOthers, List.take_append_drop]
      rw [isList] at list sorted isEnough ⊢
      have isRange : List.range' f (n + 1) = List.range' f n ++ [f + n] := by
        rw [List.range'_concat, Nat.one_mul]
      have lastInRange : f + n < l.blocks :=
        list.bound (f + n) (List.mem_append_left _ (by rw [isRange]; simp))
      have restChain : Chain l p1 memory (endOf tagged) (memory (l.blockN p1 (f + n))) others := by
        have chain := list.chain
        rw [isRange, List.append_assoc, List.singleton_append] at chain
        exact chain.after
      by_cases isTail : tagged = true ∧ others = []
      · obtain ⟨rfl, rfl⟩ := isTail
        have isTag : memory (l.blockN p1 (f + n)) = baOne := restChain
        rw [List.append_nil] at isEnough ⊢
        rw [freeBlocks_range lastInRange, List.length_range'] at isEnough
        rw [isStep, if_pos isTag]
        exact inRow_spec valid positive isSource lastInRange isEnough
      · have nonempty : tagged = true → others ≠ [] := fun isTagged isEmpty =>
          isTail ⟨isTagged, isEmpty⟩
        refine mergeRun_step valid apart list sorted nonempty positive isSource isEnough isScan
          notBefore isEnd ?_
        intro mid more restList
        rw [freeBlocks_append nonempty, List.length_append, List.length_range'] at isEnough
        exact induction restList (List.pairwise_append.mp sorted).2.1 (by omega) (by omega)
          (by omega) (by omega)

end MallocSurvey.Gjalloc
