import MallocSurvey.Gjalloc.Sorting

/-! # `BA_WALK_CHUNKS` -/

namespace MallocSurvey.Gjalloc

variable {l : Layout} {p first stop fuel start : Nat} {memory : Words} {indices : List Nat}
  {tagged : Bool}

/-- The chunks take some blocks one after another, with other blocks between them. -/
def Covers (l : Layout) (p : Nat) (chunks : List (Nat × Nat)) (live : List Nat) : Prop :=
  ∃ spans : List (Nat × Nat),
    chunks = spans.map (fun span => (l.blockN p span.1, l.blockN p span.2)) ∧
    (∀ span ∈ spans, span.1 < span.2) ∧ spans.Pairwise (fun left right => left.2 < right.1) ∧
    spans.flatMap (fun span => List.range' span.1 (span.2 - span.1)) = live

/-- The blocks that are not free, in order. -/
def liveBlocks (blocks : Nat) (free : Finset Nat) : List Nat :=
  (List.range blocks).filter fun i => i ∉ free

theorem Covers.append {left right : List (Nat × Nat)} {leftLive rightLive : List Nat}
    (leftCovers : Covers l p left leftLive) (rightCovers : Covers l p right rightLive)
    (between : ∀ i ∈ leftLive, ∀ j ∈ rightLive, i + 1 < j) :
    Covers l p (left ++ right) (leftLive ++ rightLive) := by
  obtain ⟨leftSpans, isLeft, leftOrder, leftGaps, leftBlocks⟩ := leftCovers
  obtain ⟨rightSpans, isRight, rightOrder, rightGaps, rightBlocks⟩ := rightCovers
  refine ⟨leftSpans ++ rightSpans, ?_, ?_, ?_, ?_⟩
  · rw [isLeft, isRight, List.map_append]
  · intro span member
    exact (List.mem_append.mp member).elim (leftOrder span) (rightOrder span)
  · rw [List.pairwise_append]
    refine ⟨leftGaps, rightGaps, fun first isFirst second isSecond => ?_⟩
    have firstOrder := leftOrder first isFirst
    have secondOrder := rightOrder second isSecond
    have isLast : first.2 - 1 ∈ leftLive := by
      rw [← leftBlocks, List.mem_flatMap]
      exact ⟨first, isFirst, List.mem_range'_1.mpr ⟨by omega, by omega⟩⟩
    have isNext : second.1 ∈ rightLive := by
      rw [← rightBlocks, List.mem_flatMap]
      exact ⟨second, isSecond, List.mem_range'_1.mpr ⟨Nat.le_refl _, by omega⟩⟩
    have gap := between _ isLast _ isNext
    omega
  · rw [List.flatMap_append, leftBlocks, rightBlocks]

/-- One chunk, which is left out when it is empty. -/
theorem covers_chunk (valid : l.Valid) {stopIndex : Nat} (order : start ≤ stopIndex) :
    Covers l p (if l.blockN p start < l.blockN p stopIndex then
      [(l.blockN p start, l.blockN p stopIndex)] else [])
      (List.range' start (stopIndex - start)) := by
  by_cases nonempty : start < stopIndex
  · rw [if_pos ((Layout.blockN_lt_iff valid).mpr nonempty)]
    exact ⟨[(start, stopIndex)], rfl, by simpa using nonempty, List.pairwise_singleton _ _, by simp⟩
  · have isEmpty : stopIndex - start = 0 := by omega
    rw [if_neg (fun below => nonempty ((Layout.blockN_lt_iff valid).mp below)), isEmpty]
    exact ⟨[], rfl, by simp, List.Pairwise.nil, rfl⟩

theorem walkFrom_succ (begin_ end_ : Nat) :
    walkFrom l p memory (fuel + 1) begin_ end_ =
      if ¬ l.checkPtr p end_ then some (if begin_ < end_ then [(begin_, end_)] else [])
      else if memory end_ = baOne then some (if begin_ < end_ then [(begin_, end_)] else [])
      else (walkFrom l p memory fuel (end_ + l.blockSize)
        (if memory end_ = 0 then l.lastBlock p + l.blockSize else memory end_)).map
          ((if begin_ < end_ then [(begin_, end_)] else []) ++ ·) := rfl

/-- The blocks from a position on that a list, with the end of its chain, leaves live. -/
def liveFrom (blocks stop : Nat) (indices : List Nat) (start : Nat) : List Nat :=
  (List.range' start (blocks - start)).filter fun i =>
    i ∉ indices ∧ ¬ (stop = baOne ∧ indices.getLastD 0 ≤ i)

/-- Before the first member all blocks are live. -/
theorem liveFrom_cons {blocks i : Nat} {rest : List Nat} (above : start ≤ i) (inRange : i ≤ blocks)
    (sorted : (i :: rest).Pairwise (· < ·)) :
    liveFrom blocks stop (i :: rest) start =
      List.range' start (i - start) ++ (List.range' i (blocks - i)).filter fun j =>
        j ∉ i :: rest ∧ ¬ (stop = baOne ∧ (i :: rest).getLastD 0 ≤ j) := by
  have isLast : i ≤ (i :: rest).getLastD 0 := by
    cases rest with
    | nil => exact Nat.le_refl _
    | cons j rest =>
        have later := (List.pairwise_cons.mp sorted).1
        have member : (i :: j :: rest).getLastD 0 ∈ j :: rest := by
          rw [List.getLastD_cons, List.getLastD_cons]
          exact List.getLastD_mem_cons ..
        exact Nat.le_of_lt (later _ member)
  have split : List.range' start (blocks - start) =
      List.range' start (i - start) ++ List.range' i (blocks - i) := by
    have joined := @List.range'_append start (i - start) (blocks - i) 1
    rw [Nat.one_mul, show start + (i - start) = i by omega,
      show i - start + (blocks - i) = blocks - start by omega] at joined
    exact joined.symm
  unfold liveFrom
  rw [split, List.filter_append]
  congr 1
  rw [List.filter_eq_self]
  intro j member
  rw [List.mem_range'_1] at member
  have notMember : j ∉ i :: rest := by
    intro isIn
    rcases List.mem_cons.mp isIn with isFirst | isRest
    · omega
    · have later := (List.pairwise_cons.mp sorted).1 j isRest
      omega
  simp only [decide_eq_true_eq]
  exact ⟨notMember, fun both => by omega⟩

/-- After the first member only the others count. -/
theorem liveFrom_tail {blocks i : Nat} {rest : List Nat} (inRange : i < blocks)
    (nonempty : stop = baOne → rest ≠ []) :
    ((List.range' i (blocks - i)).filter fun j =>
      j ∉ i :: rest ∧ ¬ (stop = baOne ∧ (i :: rest).getLastD 0 ≤ j)) =
      liveFrom blocks stop rest (i + 1) := by
  have tail : List.range' i (blocks - i) = i :: List.range' (i + 1) (blocks - (i + 1)) := by
    rw [show blocks - i = blocks - (i + 1) + 1 by omega, List.range'_succ]
  unfold liveFrom
  rw [tail, List.filter_cons_of_neg (by simp)]
  refine List.filter_congr fun j member => ?_
  rw [List.mem_range'_1] at member
  have notFirst : j ≠ i := by omega
  have sameLast : stop = baOne → (i :: rest).getLastD 0 = rest.getLastD 0 := by
    intro isOne
    obtain ⟨k, others, isCons⟩ := List.exists_cons_of_ne_nil (nonempty isOne)
    rw [isCons, List.getLastD_cons, List.getLastD_cons, List.getLastD_cons]
  congr 1
  apply propext
  rw [List.mem_cons, not_or]
  constructor
  · rintro ⟨⟨_, notMember⟩, notTail⟩
    exact ⟨notMember, fun both => notTail ⟨both.1, sameLast both.1 ▸ both.2⟩⟩
  · rintro ⟨notMember, notTail⟩
    exact ⟨⟨notFirst, notMember⟩, fun both => notTail ⟨both.1, sameLast both.1 ▸ both.2⟩⟩

theorem walkFrom_spec (valid : l.Valid) (chain : Chain l p memory stop first indices)
    (ends : stop ≤ baOne) (nonempty : stop = baOne → indices ≠ [])
    (above : ∀ i ∈ indices, start ≤ i) (sorted : indices.Pairwise (· < ·))
    (bound : ∀ i ∈ indices, i ≤ l.blocks) (inPage : start ≤ l.blocks)
    (enough : indices.length < fuel) :
    ∃ chunks, walkFrom l p memory fuel (l.blockN p start)
        (if first = 0 then l.lastBlock p + l.blockSize else first) = some chunks ∧
      Covers l p chunks (liveFrom l.blocks stop indices start) := by
  induction indices generalizing first start fuel with
  | nil =>
      obtain ⟨fuel, rfl⟩ := Nat.exists_eq_succ_of_ne_zero (Nat.ne_zero_of_lt enough)
      have notOne : stop ≠ baOne := fun isOne => nonempty isOne rfl
      have isNull : first = 0 := by
        have isStop : first = stop := chain
        unfold baOne at ends notOne
        omega
      have beyond : ¬ l.checkPtr p (l.blockN p l.blocks) := by
        rw [Layout.checkPtr_blockN valid]
        exact Nat.lt_irrefl _
      have allLive : liveFrom l.blocks stop [] start = List.range' start (l.blocks - start) := by
        unfold liveFrom
        rw [List.filter_eq_self]
        intro j _
        simp [notOne]
      rw [if_pos isNull, walkFrom_succ, Layout.lastBlock_end valid, if_pos beyond, allLive]
      exact ⟨_, rfl, covers_chunk valid inPage⟩
  | cons i rest induction =>
      obtain ⟨fuel, rfl⟩ := Nat.exists_eq_succ_of_ne_zero (Nat.ne_zero_of_lt enough)
      obtain ⟨isFirst, restChain⟩ := chain
      have blockAbove := Layout.one_lt_blockN l p i
      have notNull : first ≠ 0 := by omega
      have order := above i List.mem_cons_self
      have iBound := bound i List.mem_cons_self
      have laterRest := (List.pairwise_cons.mp sorted).1
      have chunk := @covers_chunk l p start valid i order
      rw [if_neg notNull, walkFrom_succ, liveFrom_cons order iBound sorted, isFirst]
      rw [isFirst] at restChain
      have alone : ∀ {empty}, empty = [] → Covers l p
          (if l.blockN p start < l.blockN p i then [(l.blockN p start, l.blockN p i)] else [])
          (List.range' start (i - start) ++ empty) := by
        rintro empty rfl
        rwa [List.append_nil]
      by_cases isEnd : i = l.blocks
      · -- the block after the page, which ends the walk
        have beyond : ¬ l.checkPtr p (l.blockN p i) := by
          rw [Layout.checkPtr_blockN valid]
          omega
        rw [if_pos beyond]
        exact ⟨_, rfl, alone (by simp [isEnd])⟩
      · have inside : ¬ ¬ l.checkPtr p (l.blockN p i) := by
          rw [not_not, Layout.checkPtr_blockN valid]
          omega
        rw [if_neg inside]
        by_cases isTag : memory (l.blockN p i) = baOne
        · rw [if_pos isTag]
          refine ⟨_, rfl, alone ?_⟩
          obtain ⟨isEmpty, isOne⟩ := restChain.of_tag isTag
          subst isEmpty
          rw [List.filter_eq_nil_iff]
          intro j member
          rw [List.mem_range'_1] at member
          simp [isOne, member.1]
        · rw [if_neg isTag]
          have notEmpty : stop = baOne → rest ≠ [] := by
            intro isOne isEmpty
            rw [isEmpty] at restChain
            exact isTag (Eq.trans restChain isOne)
          obtain ⟨others, isWalk, covers⟩ := @induction (memory (l.blockN p i)) fuel (i + 1)
            restChain notEmpty (fun j member => laterRest j member)
            (List.pairwise_cons.mp sorted).2
            (fun j member => bound j (List.mem_cons_of_mem _ member)) (by omega)
            (Nat.lt_of_succ_lt_succ enough)
          rw [Layout.blockN_next, isWalk, liveFrom_tail (by omega) notEmpty]
          refine ⟨_, rfl, chunk.append covers fun j before k after => ?_⟩
          have below := List.mem_range'_1.mp before
          have above := List.mem_range'_1.mp (List.mem_of_mem_filter after)
          omega

/-- The chunks of a page with a sorted list cover what it leaves live. The last block of the list
may be the one after the page. -/
theorem walkChunks_spec {free : Finset Nat} (valid : l.Valid)
    (chain : Chain l p memory stop first indices) (ends : stop ≤ baOne)
    (nonempty : stop = baOne → indices ≠ []) (sorted : indices.Pairwise (· < ·))
    (bound : ∀ i ∈ indices, i ≤ l.blocks) (short : indices.length < l.blocks + 2)
    (isFree : ∀ i < l.blocks, i ∈ free ↔
      i ∈ indices ∨ stop = baOne ∧ ∃ last, indices.getLast? = some last ∧ last ≤ i) :
    ∃ chunks, walkChunks l p first memory = some chunks ∧
      Covers l p chunks (liveBlocks l.blocks free) := by
  obtain ⟨chunks, isWalk, covers⟩ := @walkFrom_spec l p first stop (l.blocks + 2) 0
    memory indices valid chain ends nonempty (fun i _ => Nat.zero_le i) sorted
    bound (Nat.zero_le _) short
  refine ⟨chunks, isWalk, ?_⟩
  suffices same : liveFrom l.blocks stop indices 0 = liveBlocks l.blocks free from same ▸ covers
  unfold liveFrom liveBlocks
  rw [Nat.sub_zero, ← List.range_eq_range']
  refine List.filter_congr fun i member => ?_
  rw [List.mem_range] at member
  congr 1
  apply propext
  rw [isFree i member]
  have lastIs : ∀ last, indices.getLast? = some last → indices.getLastD 0 = last := by
    intro last isLast
    rw [List.getLastD_eq_getLast?, isLast]
    rfl
  constructor
  · rintro ⟨notMember, notTail⟩ (isMember | ⟨isOne, last, isLast, below⟩)
    · exact notMember isMember
    · exact notTail ⟨isOne, lastIs last isLast ▸ below⟩
  · intro live
    refine ⟨fun isMember => live (.inl isMember), ?_⟩
    rintro ⟨isOne, below⟩
    obtain ⟨last, isLast⟩ := Option.ne_none_iff_exists'.mp
      (fun isNone => nonempty isOne (List.getLast?_eq_none_iff.mp isNone))
    exact live (.inr ⟨isOne, last, isLast, lastIs last isLast ▸ below⟩)

theorem FreeList.nonempty (list : FreeList l p memory first indices tagged) :
    endOf tagged = baOne → indices ≠ [] := by
  intro isOne isEmpty
  have isTagged : tagged = true := endOf_inj (isOne.trans (rfl : baOne = endOf true))
  obtain ⟨front, last, isList, _⟩ := list.tag isTagged
  rw [isEmpty] at isList
  exact absurd isList (by simp)

theorem FreeList.walkChunks (valid : l.Valid) (list : FreeList l p memory first indices tagged)
    (sorted : indices.Pairwise (· < ·)) :
    ∃ chunks, walkChunks l p first memory = some chunks ∧
      Covers l p chunks (liveBlocks l.blocks (freeSet l.blocks indices tagged)) := by
  have short := length_le_of_nodup list.nodup list.bound
  refine walkChunks_spec valid list.chain (endOf_le _) list.nonempty sorted
    (fun i member => Nat.le_of_lt (list.bound i member)) (by omega) fun i inRange => ?_
  rw [mem_freeSet, and_iff_right inRange]
  have isTag : tagged = true ↔ endOf tagged = baOne :=
    ⟨fun isTrue => isTrue ▸ rfl, fun isOne => endOf_inj (isOne.trans (rfl : baOne = endOf true))⟩
  rw [isTag]

end MallocSurvey.Gjalloc

/-! # Merging two pages

The relocation callback copies the blocks. It gets a `size_t`, so a negative number of bytes is
a fault, and so are blocks outside of the two pages. -/

namespace MallocSurvey.Gjalloc

structure Relocation where
  dst : Nat
  src : Nat
  bytes : Nat
deriving DecidableEq

/-- `BA_RELOCATE_CHUNK`. -/
def relocateChunk (l : Layout) (p1 p2 : Nat) (memory : Words) (dst src : Nat) (bytes : Int) :
    Option (Words × Relocation) :=
  if 0 ≤ bytes ∧ (p1 + baPageSize ≤ dst ∧ dst + bytes.toNat ≤ p1 + l.pageSize) ∧
      p2 + baPageSize ≤ src ∧ src + bytes.toNat ≤ p2 + l.pageSize then
    some (movePage memory src dst bytes.toNat, ⟨dst, src, bytes.toNat⟩)
  else none

/-- The inner loop: the explicit free blocks that follow each other, until they are as many as
are needed. The first block is not compared. -/
def scanRun (l : Layout) (memory : Words) (bytes : Int) : Nat → Nat → Nat → Option (Nat × Nat)
  | 0, _, _ => none
  | fuel + 1, tmp, freeBytes =>
      if memory tmp = tmp + l.blockSize then
        let freeBytes := freeBytes + l.blockSize
        if (freeBytes : Int) = bytes then some (memory tmp, freeBytes)
        else scanRun l memory bytes fuel (memory tmp) freeBytes
      else some (tmp, freeBytes)

/-- The label `in_row`: all blocks from here on are free. -/
def inRow (l : Layout) (p1 p2 : Nat) (freeBlock start : Nat) (bytes : Int) (memory : Words) :
    Option (Nat × Words × List Relocation) := do
  let (memory, call) ← relocateChunk l p1 p2 memory freeBlock start bytes
  let freeBlock := freeBlock + bytes.toNat
  let memory ← storeNext l p1 memory freeBlock baOne
  return (freeBlock, memory, [call])

/-- The loop over the runs of free blocks that take a chunk. -/
def mergeRun (l : Layout) (p1 p2 : Nat) :
    Nat → Nat → Nat → Int → Words → Option (Nat × Words × List Relocation)
  | 0, _, _, _, _ => none
  | fuel + 1, freeBlock, start, bytes, memory =>
      if freeBlock = 0 then none
      else do
        let (tmp, freeBytes) ← scanRun l memory bytes (l.blocks + 1) freeBlock l.blockSize
        if memory tmp = baOne then inRow l p1 p2 freeBlock start bytes memory
        else do
          let next := memory tmp
          let (memory, call) ← relocateChunk l p1 p2 memory freeBlock start freeBytes
          if bytes - freeBytes = 0 then return (next, memory, [call])
          else do
            let (freeBlock, memory, calls) ←
              mergeRun l p1 p2 fuel next (start + freeBytes) (bytes - freeBytes) memory
            return (freeBlock, memory, call :: calls)

def mergeChunk (l : Layout) (p1 p2 : Nat) (freeBlock : Nat) (memory : Words)
    (chunk : Nat × Nat) : Option (Nat × Words × List Relocation) :=
  let bytes : Int := (chunk.2 : Int) - chunk.1
  if freeBlock = 0 then none
  else if memory freeBlock = baOne then inRow l p1 p2 freeBlock chunk.1 bytes memory
  else mergeRun l p1 p2 (l.blocks + 1) freeBlock chunk.1 bytes memory

/-- The chunks of the source are listed beforehand: the loop does not write to that page. -/
def mergeChunks (l : Layout) (p1 p2 : Nat) :
    List (Nat × Nat) → Nat → Words → Option (Nat × Words × List Relocation)
  | [], freeBlock, memory => some (freeBlock, memory, [])
  | chunk :: rest, freeBlock, memory => do
      let (freeBlock, memory, calls) ← mergeChunk l p1 p2 freeBlock memory chunk
      let (freeBlock, memory, others) ← mergeChunks l p1 p2 rest freeBlock memory
      return (freeBlock, memory, calls ++ others)

/-- `ba_merge_pages` with the headers of both pages afterwards and the calls of the callback. -/
def baMergePages (bvLength : Nat) (l : Layout) (p1 p2 : Nat) (h1 h2 : PageHeader)
    (memory : Words) : Option (PageHeader × PageHeader × Words × List Relocation) := do
  let (h1, memory) ← baSort bvLength l p1 h1 memory
  if h1.used + h2.used > l.blocks then none
  else do
    let (h2, memory) ← baSort bvLength l p2 h2 memory
    let chunks ← walkChunks l p2 h2.first memory
    let (freeBlock, memory, calls) ← mergeChunks l p1 p2 chunks h1.first memory
    let used := h1.used + h2.used
    let h1 : PageHeader := ⟨if used = l.blocks then 0 else freeBlock, used, h1.sorted⟩
    let (h2, memory) ← baFreePage l p2 memory
    return (h1, h2, memory, calls)

end MallocSurvey.Gjalloc
