import MallocSurvey.Gjalloc.Chunks

/-! # Runs of free blocks -/

namespace MallocSurvey.Gjalloc

variable {l : Layout} {p p1 p2 first stop fuel : Nat} {memory : Words} {indices : List Nat}
  {tagged : Bool}

/-! ## The free blocks in order -/

/-- The free blocks of a sorted list, with those that its tag stands for. -/
def freeBlocks (blocks : Nat) (indices : List Nat) (tagged : Bool) : List Nat :=
  if tagged then
    indices.dropLast ++ List.range' (indices.getLastD 0) (blocks - indices.getLastD 0)
  else indices

theorem freeBlocks_append {blocks : Nat} {front : List Nat} (nonempty : tagged = true → indices ≠ []) :
    freeBlocks blocks (front ++ indices) tagged = front ++ freeBlocks blocks indices tagged := by
  cases tagged with
  | false => rfl
  | true =>
      obtain ⟨last, isLast⟩ := Option.ne_none_iff_exists'.mp
        (fun isNone => nonempty rfl (List.getLast?_eq_none_iff.mp isNone))
      have sameLast : (front ++ indices).getLastD 0 = indices.getLastD 0 := by
        rw [List.getLastD_eq_getLast?, List.getLastD_eq_getLast?, List.getLast?_append, isLast]
        rfl
      unfold freeBlocks
      rw [if_pos rfl, if_pos rfl, sameLast, List.dropLast_append_of_ne_nil (nonempty rfl),
        List.append_assoc]

/-- A run that ends with the tag goes on to the end of the page. -/
theorem freeBlocks_range {blocks f n : Nat} (inRange : f + n < blocks) :
    freeBlocks blocks (List.range' f (n + 1)) true = List.range' f (blocks - f) := by
  have isRange : List.range' f (n + 1) = List.range' f n ++ [f + n] := by
    rw [List.range'_concat, Nat.one_mul]
  have joined := @List.range'_append f n (blocks - (f + n)) 1
  rw [Nat.one_mul] at joined
  unfold freeBlocks
  rw [if_pos rfl, isRange, List.dropLast_concat, List.getLastD_concat, joined]
  congr 1
  omega

theorem FreeList.mem_freeBlocks (list : FreeList l p memory first indices tagged) {i : Nat} :
    i ∈ freeBlocks l.blocks indices tagged ↔ i ∈ freeSet l.blocks indices tagged := by
  cases tagged with
  | false => exact (mem_freeSet_untagged list.bound).symm
  | true =>
      obtain ⟨front, last, isList, _⟩ := list.tag rfl
      have bound := list.bound
      subst isList
      have inRange := bound last (by simp)
      rw [mem_freeSet_snoc bound]
      unfold freeBlocks
      rw [if_pos rfl, List.dropLast_concat, List.getLastD_concat, List.mem_append,
        List.mem_range'_1, show last + (l.blocks - last) = l.blocks by omega]

theorem FreeList.freeBlocks_sorted (list : FreeList l p memory first indices tagged)
    (sorted : indices.Pairwise (· < ·)) :
    (freeBlocks l.blocks indices tagged).Pairwise (· < ·) := by
  cases tagged with
  | false => exact sorted
  | true =>
      obtain ⟨front, last, isList, below⟩ := list.tag rfl
      subst isList
      unfold freeBlocks
      rw [if_pos rfl, List.dropLast_concat, List.getLastD_concat, List.pairwise_append]
      refine ⟨(List.pairwise_append.mp sorted).1, List.pairwise_lt_range', ?_⟩
      intro i isFront j isTail
      exact Nat.lt_of_lt_of_le (below i isFront) (List.mem_range'_1.mp isTail).1

theorem FreeList.freeBlocks_length (list : FreeList l p memory first indices tagged)
    (sorted : indices.Pairwise (· < ·)) :
    (freeBlocks l.blocks indices tagged).length = (freeSet l.blocks indices tagged).card := by
  have nodup : (freeBlocks l.blocks indices tagged).Nodup :=
    (list.freeBlocks_sorted sorted).imp Nat.ne_of_lt
  rw [← List.toFinset_card_of_nodup nodup]
  congr 1
  ext i
  rw [List.mem_toFinset, list.mem_freeBlocks]

/-! ## The scan -/

theorem scanRun_succ (bytes : Int) (tmp freeBytes : Nat) :
    scanRun l memory bytes (fuel + 1) tmp freeBytes =
      if memory tmp = tmp + l.blockSize then
        if ((freeBytes + l.blockSize : Nat) : Int) = bytes then
          some (memory tmp, freeBytes + l.blockSize)
        else scanRun l memory bytes fuel (memory tmp) (freeBytes + l.blockSize)
      else some (tmp, freeBytes) := rfl

/-- The scan stops at the number that is looked for, but not at one, or behind a run. -/
theorem scanRun_spec (valid : l.Valid) {f : Nat} {rest : List Nat}
    (chain : Chain l p memory stop (l.blockN p f) (f :: rest)) (ends : stop ≤ baOne)
    (enough : rest.length < fuel) (count r : Nat) :
    ∃ n, n ≤ rest.length ∧ (f :: rest).take (n + 1) = List.range' f (n + 1) ∧
      scanRun l memory ((r * l.blockSize : Nat) : Int) fuel (l.blockN p f) (count * l.blockSize) =
        some (l.blockN p (f + n), (count + n) * l.blockSize) ∧
      (∀ i, 0 < i → i < n → count + i ≠ r) ∧
      ((0 < n ∧ count + n = r) ∨ memory (l.blockN p (f + n)) ≠ l.blockN p (f + n + 1)) := by
  obtain ⟨fuel, rfl⟩ := Nat.exists_eq_succ_of_ne_zero (Nat.ne_zero_of_lt enough)
  induction rest generalizing f count fuel with
  | nil =>
      have isStop : memory (l.blockN p f) = stop := chain.2
      have notNext : memory (l.blockN p f) ≠ l.blockN p (f + 1) := by
        have above := Layout.one_lt_blockN l p (f + 1)
        omega
      refine ⟨0, Nat.le_refl _, rfl, ?_, fun i positive below => by omega, .inr notNext⟩
      rw [scanRun_succ, Layout.blockN_next, if_neg notNext]
      rfl
  | cons g rest induction =>
      obtain ⟨fuel, rfl⟩ := Nat.exists_eq_succ_of_ne_zero
        (show fuel ≠ 0 by rw [List.length_cons] at enough; omega)
      have isNext : memory (l.blockN p f) = l.blockN p g := chain.2.1
      by_cases adjacent : g = f + 1
      · subst adjacent
        have step : count * l.blockSize + l.blockSize = (count + 1) * l.blockSize :=
          (Nat.succ_mul count l.blockSize).symm
        have sameCount : ((((count + 1) * l.blockSize : Nat) : Int) = ((r * l.blockSize : Nat) : Int)) ↔
            count + 1 = r := by
          rw [Int.ofNat_inj]
          exact ⟨Nat.eq_of_mul_eq_mul_right valid.blockSize_pos, fun same => same ▸ rfl⟩
        by_cases isCount : count + 1 = r
        · refine ⟨1, by rw [List.length_cons]; omega, rfl, ?_, fun i positive below => by omega,
            .inl ⟨Nat.one_pos, isCount⟩⟩
          rw [scanRun_succ, Layout.blockN_next, if_pos isNext, step,
            if_pos (sameCount.mpr isCount), isNext]
        · have restChain : Chain l p memory stop (l.blockN p (f + 1)) ((f + 1) :: rest) :=
            isNext ▸ chain.2
          obtain ⟨n, inList, isTake, isScan, notBefore, isEnd⟩ := @induction (f + 1) restChain
            (count + 1) fuel (Nat.lt_of_succ_lt_succ enough)
          have shift : f + 1 + n = f + (n + 1) := by omega
          have shiftCount : count + 1 + n = count + (n + 1) := by omega
          rw [shift, shiftCount] at isScan isEnd
          refine ⟨n + 1, Nat.succ_le_succ inList, ?_, ?_, ?_, ?_⟩
          · rw [List.take_succ_cons, isTake]
            exact List.range'_succ.symm
          · rw [scanRun_succ, Layout.blockN_next, if_pos isNext, step,
              if_neg (fun same => isCount (sameCount.mp same)), isNext]
            exact isScan
          · intro i positive below
            by_cases isOne : i = 1
            · exact isOne ▸ isCount
            · have before := notBefore (i - 1) (by omega) (by omega)
              omega
          · exact isEnd.imp (fun found => ⟨Nat.succ_pos _, found.2⟩) id
      · have notNext : memory (l.blockN p f) ≠ l.blockN p (f + 1) := by
          rw [isNext]
          exact fun same => adjacent ((Layout.blockN_inj valid).mp same)
        refine ⟨0, Nat.zero_le _, rfl, ?_, fun i positive below => by omega, .inr notNext⟩
        rw [scanRun_succ, Layout.blockN_next, if_neg notNext]
        rfl

/-! ## Relocated blocks -/

/-- The cells of a block. -/
def InBlock (l : Layout) (p i place : Nat) : Prop :=
  l.blockN p i ≤ place ∧ place < l.blockN p i + l.blockSize

theorem InBlock.unique {i j place : Nat} (left : InBlock l p i place)
    (right : InBlock l p j place) : i = j := by
  obtain ⟨leftStart, leftEnd⟩ := left
  obtain ⟨rightStart, rightEnd⟩ := right
  rcases Nat.lt_trichotomy i j with below | same | above
  · have order := @Layout.blockN_lt l p i j below
    omega
  · exact same
  · have order := @Layout.blockN_lt l p j i above
    omega

theorem inBlock_cell {i cell : Nat} (inside : cell < l.blockSize) :
    InBlock l p i (l.blockN p i + cell) := ⟨Nat.le_add_right _ _, Nat.add_lt_add_left inside _⟩

theorem Layout.blockN_add (l : Layout) (p i n : Nat) :
    l.blockN p (i + n) = l.blockN p i + n * l.blockSize := by
  unfold Layout.blockN
  rw [Nat.add_mul, Nat.add_assoc (p + baPageSize)]

/-- The calls take the sources one after another to the targets. -/
def Relocates (l : Layout) (p1 p2 : Nat) (calls : List Relocation)
    (targets sources : List Nat) : Prop :=
  ∃ spans : List (Nat × Nat × Nat),
    calls = spans.map (fun span =>
      ⟨l.blockN p1 span.1, l.blockN p2 span.2.1, span.2.2 * l.blockSize⟩) ∧
    (∀ span ∈ spans, 0 < span.2.2) ∧
    spans.flatMap (fun span => List.range' span.1 span.2.2) = targets ∧
    spans.flatMap (fun span => List.range' span.2.1 span.2.2) = sources

theorem Relocates.append {calls others : List Relocation}
    {targets sources otherTargets otherSources : List Nat}
    (left : Relocates l p1 p2 calls targets sources)
    (right : Relocates l p1 p2 others otherTargets otherSources) :
    Relocates l p1 p2 (calls ++ others) (targets ++ otherTargets) (sources ++ otherSources) := by
  obtain ⟨spans, rfl, positive, rfl, rfl⟩ := left
  obtain ⟨otherSpans, rfl, otherPositive, rfl, rfl⟩ := right
  refine ⟨spans ++ otherSpans, by rw [List.map_append], fun span member => ?_,
    List.flatMap_append .., List.flatMap_append ..⟩
  exact (List.mem_append.mp member).elim (positive span) (otherPositive span)

/-- Blocks of the source are copied to some of the blocks that there is room in, and nothing
else is written to. -/
structure Moved (l : Layout) (p1 p2 : Nat) (memory newMemory : Words) (calls : List Relocation)
    (targets sources room : List Nat) : Prop where
  calls : Relocates l p1 p2 calls targets sources
  contents : ∀ pair ∈ targets.zip sources, ∀ cell < l.blockSize,
    newMemory (l.blockN p1 pair.1 + cell) = memory (l.blockN p2 pair.2 + cell)
  frame : ∀ place, (∀ i ∈ room, ¬ InBlock l p1 i place) → newMemory place = memory place

/-- Pages that do not overlap. -/
def Apart (l : Layout) (p1 p2 : Nat) : Prop := p1 + l.pageSize ≤ p2 ∨ p2 + l.pageSize ≤ p1

theorem Apart.not_inBlock (valid : l.Valid) (apart : Apart l p1 p2) {i j cell : Nat}
    (iRange : i < l.blocks) (jRange : j < l.blocks) (inside : cell < l.blockSize) :
    ¬ InBlock l p1 i (l.blockN p2 j + cell) := by
  rintro ⟨isStart, isEnd⟩
  have iEnd := @Layout.blockN_lt l p1 i l.blocks iRange
  have jEnd := @Layout.blockN_lt l p2 j l.blocks jRange
  have iStart := Layout.blockN_ge l p1 i
  have jStart := Layout.blockN_ge l p2 j
  rw [← Layout.pageEnd valid] at iEnd jEnd
  unfold Apart at apart
  omega

theorem Moved.weaken {newMemory : Words} {calls : List Relocation}
    {targets sources room largerRoom : List Nat}
    (moved : Moved l p1 p2 memory newMemory calls targets sources room)
    (larger : ∀ i ∈ room, i ∈ largerRoom) :
    Moved l p1 p2 memory newMemory calls targets sources largerRoom :=
  ⟨moved.calls, moved.contents,
    fun place outside => moved.frame place fun i isIn => outside i (larger i isIn)⟩

theorem Moved.append {mid newMemory : Words} {calls others : List Relocation}
    {targets sources otherTargets otherSources room otherRoom : List Nat} (valid : l.Valid)
    (apart : Apart l p1 p2) (left : Moved l p1 p2 memory mid calls targets sources room)
    (right : Moved l p1 p2 mid newMemory others otherTargets otherSources otherRoom)
    (same : targets.length = sources.length) (isRoom : ∀ i ∈ room, i < l.blocks)
    (isSource : ∀ i ∈ otherSources, i < l.blocks)
    (smaller : ∀ i ∈ otherRoom, i ∈ room) (taken : ∀ i ∈ otherRoom, i ∉ targets) :
    Moved l p1 p2 memory newMemory (calls ++ others) (targets ++ otherTargets)
      (sources ++ otherSources) room := by
  refine ⟨left.calls.append right.calls, ?_, ?_⟩
  · intro pair member cell inside
    rw [List.zip_append same, List.mem_append] at member
    rcases member with isLeft | isRight
    · rw [right.frame, left.contents pair isLeft cell inside]
      intro i isIn inCell
      have isTarget := (List.of_mem_zip isLeft).1
      have sameBlock := inCell.unique (inBlock_cell inside)
      exact taken i isIn (sameBlock ▸ isTarget)
    · rw [right.contents pair isRight cell inside, left.frame]
      intro i isIn
      exact apart.not_inBlock valid (isRoom i isIn)
        (isSource _ (List.of_mem_zip isRight).2) inside
  · intro place outside
    rw [right.frame place fun i isIn => outside i (smaller i isIn)]
    exact left.frame place outside

/-- One call for a run of blocks. -/
theorem relocateChunk_spec (valid : l.Valid) {f s n : Nat} (positive : 0 < n)
    (isTarget : f + n ≤ l.blocks) (isSource : s + n ≤ l.blocks) {room : List Nat}
    (inRoom : ∀ i ∈ List.range' f n, i ∈ room) :
    ∃ newMemory call, relocateChunk l p1 p2 memory (l.blockN p1 f) (l.blockN p2 s)
        ((n * l.blockSize : Nat) : Int) = some (newMemory, call) ∧
      Moved l p1 p2 memory newMemory [call] (List.range' f n) (List.range' s n) room := by
  have pageEnd : ∀ p i, i ≤ l.blocks → l.blockN p i ≤ p + l.pageSize := by
    intro p i inRange
    rw [Layout.pageEnd valid]
    unfold Layout.blockN
    exact Nat.add_le_add_left (Nat.mul_le_mul_right _ inRange) _
  have targetEnd := pageEnd p1 (f + n) isTarget
  have sourceEnd := pageEnd p2 (s + n) isSource
  rw [Layout.blockN_add] at targetEnd sourceEnd
  have targetStart := Layout.blockN_ge l p1 f
  have sourceStart := Layout.blockN_ge l p2 s
  refine ⟨_, _, if_pos ⟨Int.natCast_nonneg _, ⟨targetStart, targetEnd⟩, sourceStart, sourceEnd⟩,
    ⟨[(f, s, n)], rfl, by simpa using positive, by simp, by simp⟩, ?_, ?_⟩
  · intro pair member cell inside
    obtain ⟨i, inList, isPair⟩ := List.mem_iff_getElem.mp member
    have inRange : i < n := by simpa using inList
    have isFirst : pair.1 = f + i := by rw [← isPair]; simp
    have isSecond : pair.2 = s + i := by rw [← isPair]; simp
    have whole := Nat.mul_le_mul_right l.blockSize (Nat.succ_le_of_lt inRange)
    rw [Nat.succ_mul] at whole
    rw [isFirst, isSecond, Layout.blockN_add, Layout.blockN_add]
    show movePage memory (l.blockN p2 s) (l.blockN p1 f) (n * l.blockSize) _ = _
    unfold movePage
    rw [if_pos (by omega)]
    congr 1
    omega
  · intro place outside
    show movePage memory (l.blockN p2 s) (l.blockN p1 f) (n * l.blockSize) place = _
    unfold movePage
    rw [if_neg]
    rintro ⟨isStart, isEnd⟩
    have isCell := Nat.div_add_mod (place - l.blockN p1 f) l.blockSize
    have small := Nat.mod_lt (place - l.blockN p1 f) valid.blockSize_pos
    have inRange : (place - l.blockN p1 f) / l.blockSize < n := by
      rw [Nat.div_lt_iff_lt_mul valid.blockSize_pos]
      omega
    refine outside (f + (place - l.blockN p1 f) / l.blockSize)
      (inRoom _ (List.mem_range'_1.mpr ⟨Nat.le_add_right _ _, by omega⟩)) ?_
    unfold InBlock
    rw [Layout.blockN_add, Nat.mul_comm]
    omega

end MallocSurvey.Gjalloc
