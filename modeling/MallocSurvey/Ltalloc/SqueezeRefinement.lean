import Mathlib.Data.List.Flatten
import MallocSurvey.Ltalloc.Squeeze

/-! # What the squeeze does to the lists

The unlinking loops rewrite the links of the batches that have a block to
release. `taken` is the list at `additionalBlocksList`, `used` the blocks of the
batches unlinked so far; cells of other blocks keep their contents. -/

namespace MallocSurvey.Ltalloc

open Library

theorem next_injective : Function.Injective Cell.next := fun _ _ => Cell.next.inj

theorem nextBatch_injective : Function.Injective Cell.nextBatch :=
  fun _ _ => Cell.nextBatch.inj

/-- Appending a block to the additional ones, which start again when full. -/
def accumulate (batchSize : Nat) (taken : List Nat) (block : Nat) : List Nat :=
  if taken.length + 1 = batchSize then [] else taken ++ [block]

/-- A cell that relinking the blocks of `used` leaves alone. -/
def Outside (used : List Nat) (cell : Cell) : Prop :=
  cell ≠ .additionalBatchesList ∧ cell ≠ .additionalBlocksList ∧
    ∀ block ∈ used, cell ≠ .next block ∧ cell ≠ .nextBatch block

theorem Outside.mono {used more : List Nat} {cell : Cell} (outside : Outside more cell)
    (subset : ∀ block ∈ used, block ∈ more) : Outside used cell :=
  ⟨outside.1, outside.2.1, fun block member => outside.2.2 block (subset block member)⟩

theorem outside_next {used : List Nat} {block : Nat} (fresh : block ∉ used) :
    Outside used (.next block) :=
  ⟨Cell.noConfusion, Cell.noConfusion, fun other member =>
    ⟨fun equal => fresh (by rw [Cell.next.inj equal]; exact member), Cell.noConfusion⟩⟩

theorem outside_nextBatch {used : List Nat} {block : Nat} (fresh : block ∉ used) :
    Outside used (.nextBatch block) :=
  ⟨Cell.noConfusion, Cell.noConfusion, fun other member =>
    ⟨Cell.noConfusion, fun equal => fresh (by rw [Cell.nextBatch.inj equal]; exact member)⟩⟩

theorem outside_firstBatch (used : List Nat) : Outside used .firstBatch :=
  ⟨Cell.noConfusion, Cell.noConfusion, fun _ _ => ⟨Cell.noConfusion, Cell.noConfusion⟩⟩

/-- The state of the relinking cursors. -/
structure Relinking (used taken : List Nat) (state : Relink) : Prop where
  passed : Passed .next state.heap .additionalBlocksList taken state.ablock
  size : state.additionalBlocksListSize = taken.length
  nodup : taken.Nodup
  subset : ∀ block ∈ taken, block ∈ used
  abatch : state.abatch = .additionalBatchesList ∨
    ∃ block ∈ used, state.abatch = .nextBatch block

/-- The cells that `after` may have written are those of `used`. -/
def Frame (used : List Nat) (before after : Relink) : Prop :=
  ∀ cell, Outside used cell → after.heap cell = before.heap cell

theorem Frame.trans {used : List Nat} {first second third : Relink}
    (left : Frame used first second) (right : Frame used second third) :
    Frame used first third :=
  fun cell outside => (right cell outside).trans (left cell outside)

namespace Relinking

variable {used taken : List Nat} {state : Relink}

theorem mono {more : List Nat} (relinking : Relinking used taken state)
    (subset : ∀ block ∈ used, block ∈ more) : Relinking more taken state :=
  { relinking with
    subset := fun block member => subset block (relinking.subset block member)
    abatch := by
      rcases relinking.abatch with isList | ⟨block, member, isBlock⟩
      · exact .inl isList
      · exact .inr ⟨block, subset block member, isBlock⟩ }

/-- The cursor `ablock` is in the additional list. -/
theorem ablock_cases (relinking : Relinking used taken state) :
    state.ablock = .additionalBlocksList ∨ ∃ block ∈ taken, state.ablock = .next block := by
  rcases relinking.passed.cell_cases with ⟨_, isStart⟩ | isLink
  · exact .inl isStart
  · exact .inr isLink

theorem ablock_ne (relinking : Relinking used taken state) {cell : Cell}
    (outside : Outside used cell) : cell ≠ state.ablock := by
  rcases relinking.ablock_cases with isStart | ⟨block, member, isLink⟩
  · rw [isStart]
    exact outside.2.1
  · rw [isLink]
    exact (outside.2.2 block (relinking.subset block member)).1

theorem next_ne_ablock (relinking : Relinking used taken state) {block : Nat}
    (fresh : block ∉ taken) : Cell.next block ≠ state.ablock := by
  rcases relinking.ablock_cases with isStart | ⟨other, member, isLink⟩
  · rw [isStart]
    exact Cell.noConfusion
  · rw [isLink]
    intro equal
    exact fresh (Cell.next.inj equal ▸ member)

theorem abatch_ne (relinking : Relinking used taken state) {cell : Cell}
    (outside : Outside used cell) : cell ≠ state.abatch := by
  rcases relinking.abatch with isList | ⟨block, member, isBlock⟩
  · rw [isList]
    exact outside.1
  · rw [isBlock]
    exact (outside.2.2 block member).2

/-- Writing through `ablock`. -/
theorem write (relinking : Relinking used taken state) (pointer : Nat) :
    Relinking used taken (state.write state.ablock pointer) ∧
      Frame used state (state.write state.ablock pointer) :=
  ⟨{ relinking with
    passed := relinking.passed.write relinking.nodup next_injective
      (fun _ => Cell.noConfusion) pointer },
    fun _ outside => Function.update_of_ne (relinking.ablock_ne outside) _ _⟩

/-- A block that `*ablock` points to joins the additional ones. -/
theorem push (relinking : Relinking used taken state) {block : Nat}
    (points : state.heap state.ablock = block) (nonzero : block ≠ 0)
    (fresh : block ∉ taken) (member : block ∈ used) :
    Relinking used (taken ++ [block]) { state with
      ablock := .next block
      additionalBlocksListSize := state.additionalBlocksListSize + 1 } where
  passed := .snoc relinking.passed points nonzero
  size := by simp [relinking.size]
  nodup := by
    rw [List.nodup_append]
    refine ⟨relinking.nodup, List.nodup_singleton block, ?_⟩
    intro other otherMem element isBlock equal
    exact fresh (List.mem_singleton.mp isBlock ▸ equal ▸ otherMem)
  subset := by
    intro other otherMem
    rcases List.mem_append.mp otherMem with otherMem | isBlock
    · exact relinking.subset other otherMem
    · exact List.mem_singleton.mp isBlock ▸ member
  abatch := relinking.abatch

theorem next_ne_abatch (relinking : Relinking used taken state) (block : Nat) :
    Cell.next block ≠ state.abatch := by
  rcases relinking.abatch with isList | ⟨_, _, isBlock⟩
  · rw [isList]
    exact Cell.noConfusion
  · rw [isBlock]
    exact Cell.noConfusion

/-- A full list leaves the cursors at an empty one. -/
theorem flush (relinking : Relinking used taken state) (nonempty : taken ≠ []) :
    Relinking used [] state.flush ∧ state.flush.heap state.flush.ablock = 0 ∧
      Frame used state state.flush ∧
      ∀ other ∉ taken, state.flush.heap (.next other) = state.heap (.next other) := by
  have isHead := relinking.passed.head nonempty
  have inUsed := relinking.subset _ isHead.2
  refine ⟨⟨.nil, rfl, List.nodup_nil, (fun _ member => nomatch member),
    .inr ⟨_, inUsed, ?_⟩⟩, ?_, ?_, ?_⟩
  · simp only [Relink.flush, isHead.1]
  · simp only [Relink.flush, Relink.write, Function.update_self]
  · intro cell outside
    simp only [Relink.flush, Relink.write, isHead.1]
    rw [Function.update_of_ne outside.2.1,
      Function.update_of_ne (relinking.ablock_ne outside),
      Function.update_of_ne (outside.2.2 _ inUsed).2,
      Function.update_of_ne (relinking.abatch_ne outside)]
  · intro other fresh
    simp only [Relink.flush, Relink.write]
    rw [Function.update_of_ne Cell.noConfusion,
      Function.update_of_ne (relinking.next_ne_ablock fresh),
      Function.update_of_ne Cell.noConfusion,
      Function.update_of_ne (relinking.next_ne_abatch other)]

end Relinking

/-! ## Re-adding the blocks of a batch -/

section Loops

variable {matching : Nat → Bool} {batchSize : Nat}

/-- Both loops go on from an appended block in the same way. -/
theorem Relinking.appended {used taken : List Nat} {moved : Relink} {block : Nat}
    (pushed : Relinking used (taken ++ [block]) moved) :
    (moved.additionalBlocksListSize = batchSize →
        accumulate batchSize taken block = [] ∧ Relinking used [] moved.flush ∧
          moved.flush.heap moved.flush.ablock = 0 ∧ Frame used moved moved.flush ∧
          ∀ other ∉ taken ++ [block],
            moved.flush.heap (.next other) = moved.heap (.next other)) ∧
      (moved.additionalBlocksListSize ≠ batchSize →
        accumulate batchSize taken block = taken ++ [block]) := by
  rw [pushed.size, List.length_append, List.length_singleton]
  exact ⟨fun full => ⟨if_pos full, pushed.flush (by simp)⟩, fun short => if_neg short⟩

theorem not_mem_appended {taken rest : List Nat} {block : Nat}
    (fresh : ∀ other ∈ rest, other ∉ taken) (notInRest : block ∉ rest) :
    ∀ other ∈ rest, other ∉ taken ++ [block] := by
  intro other member
  rw [List.mem_append, List.mem_singleton, not_or]
  exact ⟨fresh other member, fun equal => notInRest (equal ▸ member)⟩

theorem readdBatch_spec {todo : List Nat} :
    ∀ {used taken : List Nat} {state : Relink} {fuel : Nat} {inRun : Bool},
      Linked .next state.heap todo → todo.Nodup →
      (∀ block ∈ todo, block ∉ taken ∧ block ∈ used) → todo.length < fuel →
      Relinking used taken state →
      (inRun = true → state.heap state.ablock = todo.headD 0) →
      ∃ after, readdBatch matching batchSize fuel inRun (todo.headD 0) state =
          some after ∧
        Relinking used ((todo.filter fun block => !matching block).foldl
          (accumulate batchSize) taken) after ∧
        Frame used state after := by
  induction todo with
  | nil =>
      intro used taken state fuel inRun _ _ _ enough relinking _
      obtain ⟨fuel, rfl⟩ := Nat.exists_eq_succ_of_ne_zero (Nat.ne_zero_of_lt enough)
      exact ⟨state, rfl, relinking, fun _ _ => rfl⟩
  | cons block rest induction =>
      intro used taken state fuel inRun linked nodup fresh enough relinking run
      obtain ⟨fuel, rfl⟩ := Nat.exists_eq_succ_of_ne_zero (Nat.ne_zero_of_lt enough)
      have restNodup := List.nodup_cons.mp nodup
      have blockFresh := fresh block List.mem_cons_self
      have restFresh := fun other (member : other ∈ rest) =>
        fresh other (List.mem_cons_of_mem _ member)
      rw [readdBatch, List.headD_cons, if_neg linked.1]
      cases isMatching : matching block with
      | true =>
          rw [if_pos rfl, linked.2.1, List.filter_cons_of_neg (by simp [isMatching])]
          exact induction linked.2.2 restNodup.2 restFresh (Nat.lt_of_succ_lt_succ enough)
            relinking (fun absurd => by cases absurd)
      | false =>
          rw [if_neg Bool.false_ne_true, List.filter_cons_of_pos (by simp [isMatching]),
            List.foldl_cons]
          obtain ⟨written, writtenEq, writtenRel, points, frame⟩ :
              ∃ written, (if inRun = true then state else state.write state.ablock block) =
                  written ∧ Relinking used taken written ∧
                written.heap written.ablock = block ∧
                ∀ other ∉ taken, written.heap (.next other) = state.heap (.next other) ∧
                  Frame used state written := by
            cases inRun with
            | true =>
                exact ⟨state, rfl, relinking, run rfl, fun _ _ => ⟨rfl, fun _ _ => rfl⟩⟩
            | false =>
                obtain ⟨rel, writeFrame⟩ := relinking.write block
                exact ⟨_, rfl, rel, Function.update_self _ _ _, fun other otherFresh =>
                  ⟨Function.update_of_ne (relinking.next_ne_ablock otherFresh) _ _,
                    writeFrame⟩⟩
          have sameNext := fun other (member : other ∈ block :: rest) =>
            (frame other (fresh other member).1).1
          have writeFrame := (frame block blockFresh.1).2
          have following : written.heap (.next block) = rest.headD 0 :=
            (sameNext block List.mem_cons_self).trans linked.2.1
          have restLinked : Linked .next written.heap rest :=
            linked.2.2.congr fun other member =>
              sameNext other (List.mem_cons_of_mem _ member)
          have pushed := writtenRel.push points linked.1 blockFresh.1 blockFresh.2
          obtain ⟨whenFull, whenShort⟩ := pushed.appended
          have restFreshAppended :=
            not_mem_appended (fun other member => (restFresh other member).1) restNodup.1
          simp only [writtenEq, following]
          split_ifs with full
          · obtain ⟨emptied, flushed, _, flushFrame, flushNext⟩ := whenFull full
            obtain ⟨after, result, rel, afterFrame⟩ := @induction used _ _ fuel false
              (restLinked.congr fun other member =>
                flushNext other (restFreshAppended other member)) restNodup.2
              (fun other member => ⟨List.not_mem_nil, (restFresh other member).2⟩)
              (Nat.lt_of_succ_lt_succ enough) flushed (fun absurd => by cases absurd)
            rw [emptied]
            exact ⟨after, result, rel, (writeFrame.trans flushFrame).trans afterFrame⟩
          · obtain ⟨after, result, rel, afterFrame⟩ := @induction used _ { written with
                ablock := .next block
                additionalBlocksListSize := written.additionalBlocksListSize + 1 } fuel true
              restLinked restNodup.2
              (fun other member => ⟨restFreshAppended other member,
                (restFresh other member).2⟩)
              (Nat.lt_of_succ_lt_succ enough) pushed (fun _ => following)
            rw [whenShort full]
            exact ⟨after, result, rel, writeFrame.trans afterFrame⟩

/-! ## Re-adding the loose blocks -/

theorem readdBlocks_spec {todo : List Nat} :
    ∀ {used taken : List Nat} {state : Relink} {fuel : Nat},
      Linked .next state.heap todo → todo.Nodup →
      (∀ block ∈ todo, block ∉ taken ∧ block ∈ used) → todo.length < fuel →
      Relinking used taken state → state.heap state.ablock = 0 →
      ∃ after, readdBlocks matching batchSize fuel (todo.headD 0) state = some after ∧
        Relinking used ((todo.filter fun block => !matching block).foldl
          (accumulate batchSize) taken) after ∧
        after.heap after.ablock = 0 ∧ Frame used state after := by
  induction todo with
  | nil =>
      intro used taken state fuel _ _ _ enough relinking isNull
      obtain ⟨fuel, rfl⟩ := Nat.exists_eq_succ_of_ne_zero (Nat.ne_zero_of_lt enough)
      exact ⟨state, rfl, relinking, isNull, fun _ _ => rfl⟩
  | cons block rest induction =>
      intro used taken state fuel linked nodup fresh enough relinking isNull
      obtain ⟨fuel, rfl⟩ := Nat.exists_eq_succ_of_ne_zero (Nat.ne_zero_of_lt enough)
      have restNodup := List.nodup_cons.mp nodup
      have blockFresh := fresh block List.mem_cons_self
      have restFresh := fun other (member : other ∈ rest) =>
        fresh other (List.mem_cons_of_mem _ member)
      rw [readdBlocks, List.headD_cons, if_neg linked.1]
      cases isMatching : matching block with
      | true =>
          rw [if_pos rfl, linked.2.1, List.filter_cons_of_neg (by simp [isMatching])]
          exact induction linked.2.2 restNodup.2 restFresh
            (Nat.lt_of_succ_lt_succ enough) relinking isNull
      | false =>
          rw [if_neg Bool.false_ne_true, List.filter_cons_of_pos (by simp [isMatching]),
            List.foldl_cons]
          obtain ⟨writtenRel, writeFrame⟩ := relinking.write block
          have sameNext : ∀ other ∈ block :: rest,
              (state.write state.ablock block).heap (.next other) =
                state.heap (.next other) := fun other member =>
            Function.update_of_ne (relinking.next_ne_ablock (fresh other member).1) _ _
          have following : (state.write state.ablock block).heap (.next block) =
              rest.headD 0 :=
            (sameNext block List.mem_cons_self).trans linked.2.1
          have pushed := writtenRel.push (Function.update_self _ _ _) linked.1
            blockFresh.1 blockFresh.2
          obtain ⟨endedRel, endFrame⟩ := pushed.write 0
          obtain ⟨whenFull, whenShort⟩ := endedRel.appended
          have restFreshAppended :=
            not_mem_appended (fun other member => (restFresh other member).1) restNodup.1
          have restLinked : Linked .next
              ((state.write state.ablock block).write (.next block) 0).heap rest :=
            linked.2.2.congr fun other member => by
              rw [← sameNext other (List.mem_cons_of_mem _ member)]
              refine Function.update_of_ne (fun equal => restNodup.1 ?_) _ _
              rw [← Cell.next.inj equal]
              exact member
          have moveFrame := writeFrame.trans endFrame
          simp only [following]
          split_ifs with full
          · obtain ⟨emptied, flushed, flushedNull, flushFrame, flushNext⟩ := whenFull full
            obtain ⟨after, result, rel, afterNull, afterFrame⟩ := induction
              (restLinked.congr fun other member =>
                flushNext other (restFreshAppended other member)) restNodup.2
              (fun other member => ⟨List.not_mem_nil, (restFresh other member).2⟩)
              (Nat.lt_of_succ_lt_succ enough) flushed flushedNull
            rw [emptied]
            exact ⟨after, result, rel, afterNull,
              (moveFrame.trans flushFrame).trans afterFrame⟩
          · obtain ⟨after, result, rel, afterNull, afterFrame⟩ := @induction used _
              { (state.write state.ablock block).write (.next block) 0 with
                ablock := .next block
                additionalBlocksListSize := state.additionalBlocksListSize + 1 } fuel
              restLinked restNodup.2
              (fun other member => ⟨restFreshAppended other member,
                (restFresh other member).2⟩)
              (Nat.lt_of_succ_lt_succ enough) endedRel (Function.update_self _ _ _)
            rw [whenShort full]
            exact ⟨after, result, rel, afterNull, moveFrame.trans afterFrame⟩

/-! ## Unlinking batches -/

/-- The list of batches that a heap holds. -/
structure BatchesAt (heap : Heap) (batches : List (List Nat)) : Prop where
  linked : Linked .nextBatch heap (batches.map (·.headD 0))
  blocks : ∀ batch ∈ batches, batch ≠ [] ∧ Linked .next heap batch

theorem BatchesAt.congr {heap other : Heap} {batches : List (List Nat)}
    (batchesAt : BatchesAt heap batches)
    (next : ∀ block ∈ batches.flatten, other (.next block) = heap (.next block))
    (nextBatch : ∀ block ∈ batches.flatten,
      other (.nextBatch block) = heap (.nextBatch block)) : BatchesAt other batches where
  linked := batchesAt.linked.congr fun head member => by
    obtain ⟨batch, isBatch, isHead⟩ := List.mem_map.mp member
    obtain ⟨nonempty, _⟩ := batchesAt.blocks batch isBatch
    cases batch with
    | nil => exact absurd rfl nonempty
    | cons first rest =>
        exact nextBatch head (List.mem_flatten.mpr ⟨_, isBatch, by simp [← isHead]⟩)
  blocks batch isBatch := by
    obtain ⟨nonempty, linked⟩ := batchesAt.blocks batch isBatch
    exact ⟨nonempty, linked.congr fun block member =>
      next block (List.mem_flatten.mpr ⟨batch, isBatch, member⟩)⟩

theorem BatchesAt.tail {heap : Heap} {batch : List Nat} {rest : List (List Nat)}
    (batchesAt : BatchesAt heap (batch :: rest)) : BatchesAt heap rest where
  linked := batchesAt.linked.2.2
  blocks other member := batchesAt.blocks other (List.mem_cons_of_mem _ member)

/-- A batch is kept as it is when no block of it is released. -/
def keeps (matching : Nat → Bool) (batch : List Nat) : Bool := !batch.any matching

/-- The blocks of the other batches that are not released. -/
def readded (matching : Nat → Bool) (batches : List (List Nat)) : List Nat :=
  ((batches.filter fun batch => !keeps matching batch).flatten).filter
    fun block => !matching block

theorem readded_cons_of_keeps {batch : List Nat} {rest : List (List Nat)}
    (kept : keeps matching batch = true) :
    readded matching (batch :: rest) = readded matching rest := by
  simp [readded, kept]

theorem readded_cons_of_not_keeps {batch : List Nat} {rest : List (List Nat)}
    (split : keeps matching batch = false) :
    readded matching (batch :: rest) =
      (batch.filter fun block => !matching block) ++ readded matching rest := by
  simp [readded, split]

/-- Where `pbatch` may point: `firstBatch` or the link of a kept batch. -/
def KeptCell (heads : List Nat) (cell : Cell) : Prop :=
  cell = .firstBatch ∨ ∃ head ∈ heads, cell = .nextBatch head

/-- The loop has passed the batches that start at `kept`. -/
structure Unlinking (used kept taken : List Nat) (pbatch : Cell) (state : Relink) :
    Prop where
  passed : Passed .nextBatch state.heap .firstBatch kept pbatch
  relinking : Relinking used taken state
  null : state.heap state.ablock = 0
  nodup : kept.Nodup
  fresh : ∀ head ∈ kept, head ∉ used

theorem Unlinking.keptCell {used kept taken : List Nat} {pbatch : Cell} {state : Relink}
    (unlinking : Unlinking used kept taken pbatch state) : KeptCell kept pbatch := by
  rcases unlinking.passed.cell_cases with ⟨_, isStart⟩ | isLink
  · exact .inl isStart
  · exact .inr isLink

/-- Unlinking the batch at `pbatch` once its blocks have been re-added. -/
theorem Unlinking.unlink {used more kept taken newTaken : List Nat} {pbatch : Cell}
    {state readded : Relink} (unlinking : Unlinking used kept taken pbatch state)
    (relinking : Relinking more newTaken readded) (frame : Frame more state readded)
    (fresh : ∀ head ∈ kept, head ∉ more) (nextBatch : Nat) :
    Unlinking more kept newTaken pbatch
        ((readded.write readded.ablock 0).write pbatch nextBatch) ∧
      ∀ cell, Outside more cell → cell ≠ pbatch →
        ((readded.write readded.ablock 0).write pbatch nextBatch).heap cell =
          state.heap cell := by
  obtain ⟨ended, endFrame⟩ := relinking.write 0
  have keptCell := unlinking.keptCell
  have notNext : ∀ block, Cell.next block ≠ pbatch := by
    intro block equal
    rcases keptCell with isFirst | ⟨_, _, isLink⟩
    · rw [isFirst] at equal
      cases equal
    · rw [isLink] at equal
      cases equal
  have notList : Cell.additionalBlocksList ≠ pbatch := by
    intro equal
    rcases keptCell with isFirst | ⟨_, _, isLink⟩
    · rw [isFirst] at equal
      cases equal
    · rw [isLink] at equal
      cases equal
  have passed : Passed .nextBatch (readded.write readded.ablock 0).heap .firstBatch kept
      pbatch :=
    unlinking.passed.congr ((frame.trans endFrame) _ (outside_firstBatch _))
      fun head member => (frame.trans endFrame) _ (outside_nextBatch (fresh head member))
  refine ⟨⟨passed.write unlinking.nodup nextBatch_injective (fun _ => Cell.noConfusion)
    nextBatch, { ended with passed := ?_ }, ?_, unlinking.nodup, fresh⟩, ?_⟩
  · exact ended.passed.congr (Function.update_of_ne notList _ _)
      fun block _ => Function.update_of_ne (notNext block) _ _
  · have ablockNe : readded.ablock ≠ pbatch := by
      rcases relinking.ablock_cases with isStart | ⟨block, _, isLink⟩
      · rw [isStart]
        exact notList
      · rw [isLink]
        exact notNext block
    exact (Function.update_of_ne ablockNe _ _).trans (Function.update_self _ _ _)
  · intro cell outside different
    exact (Function.update_of_ne different _ _).trans
      ((frame.trans endFrame) cell outside)

/-- A kept batch is passed. -/
theorem Unlinking.pass {used kept taken batch : List Nat} {rest : List (List Nat)}
    {pbatch : Cell} {state : Relink} (unlinking : Unlinking used kept taken pbatch state)
    (points : state.heap pbatch = batch.headD 0) (nonzero : batch.headD 0 ≠ 0)
    (nonempty : batch ≠ []) (nodup : (kept ++ (batch :: rest).flatten).Nodup)
    (fresh : ∀ block ∈ batch, block ∉ used) :
    (kept ++ [batch.headD 0] ++ rest.flatten).Nodup ∧
      Unlinking used (kept ++ [batch.headD 0]) taken (.nextBatch (batch.headD 0)) state := by
  have headMem : batch.headD 0 ∈ batch := by
    cases batch with
    | nil => exact absurd rfl nonempty
    | cons first others => exact List.mem_cons_self
  have keptNodup : (kept ++ [batch.headD 0] ++ rest.flatten).Nodup := by
    refine nodup.sublist ?_
    rw [List.append_assoc, List.flatten_cons]
    exact (List.Sublist.append (List.singleton_sublist.mpr headMem)
      (List.Sublist.refl _)).append_left kept
  refine ⟨keptNodup, .snoc unlinking.passed points nonzero, unlinking.relinking,
    unlinking.null, (List.nodup_append.mp keptNodup).1, ?_⟩
  intro other member
  rcases List.mem_append.mp member with member | member
  · exact unlinking.fresh other member
  · rw [List.mem_singleton.mp member]
    exact fresh _ headMem

/-- A batch with a block to release is unlinked and its other blocks re-added. -/
theorem Unlinking.readd {used kept taken batch : List Nat} {rest : List (List Nat)}
    {pbatch : Cell} {state : Relink} {fuel : Nat}
    (unlinking : Unlinking used kept taken pbatch state)
    (batchesAt : BatchesAt state.heap (batch :: rest))
    (nodup : (kept ++ (batch :: rest).flatten).Nodup)
    (fresh : ∀ block ∈ (batch :: rest).flatten, block ∉ used)
    (enough : batch.length < fuel) :
    ∃ added, readdBatch matching batchSize fuel false (batch.headD 0) state = some added ∧
      Unlinking (used ++ batch) kept ((batch.filter fun block => !matching block).foldl
          (accumulate batchSize) taken) pbatch
        ((added.write added.ablock 0).write pbatch
          (state.heap (.nextBatch (batch.headD 0)))) ∧
      BatchesAt ((added.write added.ablock 0).write pbatch
          (state.heap (.nextBatch (batch.headD 0)))).heap rest ∧
      (∀ block ∈ rest.flatten, block ∉ used ++ batch) ∧
      ∀ cell, Outside (used ++ batch) cell → cell ≠ pbatch →
        ((added.write added.ablock 0).write pbatch
          (state.heap (.nextBatch (batch.headD 0)))).heap cell = state.heap cell := by
  rw [List.flatten_cons] at nodup fresh
  obtain ⟨_, batchesNodup, keptDisjoint⟩ := List.nodup_append.mp nodup
  obtain ⟨batchNodup, _, batchDisjoint⟩ := List.nodup_append.mp batchesNodup
  have keptFresh : ∀ other ∈ kept, other ∉ used ++ batch := by
    intro other member inMore
    rcases List.mem_append.mp inMore with inUsed | inBatch
    · exact unlinking.fresh other member inUsed
    · exact keptDisjoint other member other (List.mem_append_left _ inBatch) rfl
  have restFresh : ∀ block ∈ rest.flatten, block ∉ used ++ batch := by
    intro block member inMore
    rcases List.mem_append.mp inMore with inUsed | inBatch
    · exact fresh block (List.mem_append_right _ member) inUsed
    · exact batchDisjoint block inBatch block member rfl
  obtain ⟨_, linked⟩ := batchesAt.blocks batch List.mem_cons_self
  obtain ⟨added, result, relinking, addedFrame⟩ :=
    @readdBatch_spec _ _ _ _ _ _ _ false linked batchNodup
      (fun block member => ⟨fun inTaken => fresh block (List.mem_append_left _ member)
        (unlinking.relinking.subset block inTaken), List.mem_append_right _ member⟩)
      enough (unlinking.relinking.mono fun _ => List.mem_append_left _)
      (fun absurd => by cases absurd)
  obtain ⟨unlinked, frame⟩ := unlinking.unlink relinking addedFrame keptFresh
    (state.heap (.nextBatch (batch.headD 0)))
  have notPbatch : ∀ block ∈ rest.flatten,
      Cell.next block ≠ pbatch ∧ Cell.nextBatch block ≠ pbatch := by
    intro block member
    rcases unlinking.keptCell with isFirst | ⟨other, isKept, isLink⟩
    · rw [isFirst]
      exact ⟨Cell.noConfusion, Cell.noConfusion⟩
    · rw [isLink]
      refine ⟨Cell.noConfusion, fun equal => ?_⟩
      exact keptDisjoint other isKept block (List.mem_append_right _ member)
        (Cell.nextBatch.inj equal).symm
  refine ⟨added, result, unlinked, batchesAt.tail.congr ?_ ?_, restFresh, frame⟩
  · intro block member
    exact frame _ (outside_next (restFresh block member)) (notPbatch block member).1
  · intro block member
    exact frame _ (outside_nextBatch (restFresh block member)) (notPbatch block member).2

/-- What the unlinking loop has done when it reaches the end of `rest`. -/
structure Unlinked (matching : Nat → Bool) (batchSize : Nat) (used kept taken : List Nat)
    (rest : List (List Nat)) (state : Relink) (newPbatch : Cell) (after : Relink)
    (newUsed : List Nat) : Prop where
  unlinking : Unlinking newUsed (kept ++ (rest.filter (keeps matching)).map (·.headD 0))
    ((readded matching rest).foldl (accumulate batchSize) taken) newPbatch after
  null : after.heap newPbatch = 0
  subset : ∀ block ∈ newUsed, block ∈ used ∨ block ∈ rest.flatten
  fresh : ∀ block ∈ (rest.filter (keeps matching)).flatten, block ∉ newUsed
  more : ∀ block ∈ used, block ∈ newUsed
  frame : ∀ cell, Outside newUsed cell →
    ¬ KeptCell (kept ++ (rest.filter (keeps matching)).map (·.headD 0)) cell →
    after.heap cell = state.heap cell

section Unlinked

variable {used kept taken batch : List Nat} {rest : List (List Nat)} {state : Relink}
  {newPbatch : Cell} {after : Relink} {newUsed : List Nat}

theorem Unlinked.of_pass (unlinked : Unlinked matching batchSize used
      (kept ++ [batch.headD 0]) taken rest state newPbatch after newUsed)
    (split : keeps matching batch = true) (nodup : (batch :: rest).flatten.Nodup)
    (fresh : ∀ block ∈ batch, block ∉ used) :
    Unlinked matching batchSize used kept taken (batch :: rest) state newPbatch after
      newUsed := by
  have heads : kept ++ ((batch :: rest).filter (keeps matching)).map (·.headD 0) =
      kept ++ [batch.headD 0] ++ (rest.filter (keeps matching)).map (·.headD 0) := by
    rw [List.filter_cons_of_pos split, List.map_cons, List.append_assoc,
      List.singleton_append]
  rw [List.flatten_cons] at nodup
  refine ⟨?_, unlinked.null, ?_, ?_, unlinked.more, ?_⟩
  · rw [heads, readded_cons_of_keeps split]
    exact unlinked.unlinking
  · intro block member
    rcases unlinked.subset block member with inUsed | inRest
    · exact .inl inUsed
    · exact .inr (List.flatten_cons ▸ List.mem_append_right _ inRest)
  · intro block member inUsed
    rw [List.filter_cons_of_pos split, List.flatten_cons] at member
    rcases List.mem_append.mp member with inBatch | member
    · rcases unlinked.subset block inUsed with inUsed | inRest
      · exact fresh block inBatch inUsed
      · exact (List.nodup_append.mp nodup).2.2 block inBatch block inRest rfl
    · exact unlinked.fresh block member inUsed
  · rw [heads]
    exact unlinked.frame

theorem Unlinked.of_readd {pbatch : Cell} {unlinkedState : Relink}
    (unlinked : Unlinked matching batchSize (used ++ batch) kept
      ((batch.filter fun block => !matching block).foldl (accumulate batchSize) taken)
      rest unlinkedState newPbatch after newUsed)
    (split : keeps matching batch = false) (keptCell : KeptCell kept pbatch)
    (frame : ∀ cell, Outside (used ++ batch) cell → cell ≠ pbatch →
      unlinkedState.heap cell = state.heap cell) :
    Unlinked matching batchSize used kept taken (batch :: rest) state newPbatch after
      newUsed := by
  have kepts : (batch :: rest).filter (keeps matching) = rest.filter (keeps matching) :=
    List.filter_cons_of_neg (by simp [split])
  refine ⟨?_, unlinked.null, ?_, ?_, ?_, ?_⟩
  · rw [kepts, readded_cons_of_not_keeps split, List.foldl_append]
    exact unlinked.unlinking
  · intro block member
    rw [List.flatten_cons]
    rcases unlinked.subset block member with inMore | inRest
    · rcases List.mem_append.mp inMore with inUsed | inBatch
      · exact .inl inUsed
      · exact .inr (List.mem_append_left _ inBatch)
    · exact .inr (List.mem_append_right _ inRest)
  · rw [kepts]
    exact unlinked.fresh
  · exact fun block member => unlinked.more block (List.mem_append_left _ member)
  · rw [kepts]
    intro cell outside notKept
    rw [unlinked.frame cell outside notKept]
    refine frame cell (outside.mono unlinked.more) fun equal => notKept ?_
    rcases keptCell with isFirst | ⟨head, member, isLink⟩
    · exact .inl (equal.trans isFirst)
    · exact .inr ⟨head, List.mem_append_left _ member, equal.trans isLink⟩

end Unlinked

theorem unlinkBatches_spec {rest : List (List Nat)} :
    ∀ {used kept taken : List Nat} {pbatch : Cell} {state : Relink} {fuel : Nat},
      Unlinking used kept taken pbatch state → BatchesAt state.heap rest →
      state.heap pbatch = (rest.map (·.headD 0)).headD 0 →
      (kept ++ rest.flatten).Nodup → (∀ block ∈ rest.flatten, block ∉ used) →
      rest.flatten.length < fuel →
      ∃ newPbatch after newUsed,
        unlinkBatches matching batchSize fuel pbatch state = some (newPbatch, after) ∧
        Unlinked matching batchSize used kept taken rest state newPbatch after newUsed := by
  induction rest with
  | nil =>
      intro used kept taken pbatch state fuel unlinking _ points _ _ enough
      obtain ⟨fuel, rfl⟩ := Nat.exists_eq_succ_of_ne_zero (Nat.ne_zero_of_lt enough)
      refine ⟨pbatch, state, used, ?_, ?_, points, fun _ => .inl, ?_, fun _ => id,
        fun _ _ _ => rfl⟩
      · rw [unlinkBatches, points]
        rfl
      · simpa [readded] using unlinking
      · intro _ member
        cases member
  | cons batch rest induction =>
      intro used kept taken pbatch state fuel unlinking batchesAt points nodup fresh enough
      obtain ⟨fuel, rfl⟩ := Nat.exists_eq_succ_of_ne_zero (Nat.ne_zero_of_lt enough)
      obtain ⟨nonempty, linked⟩ := batchesAt.blocks batch List.mem_cons_self
      obtain ⟨head, blocks, isBatch⟩ := List.exists_cons_of_ne_nil nonempty
      have headEq : batch.headD 0 = head := by rw [isBatch, List.headD_cons]
      rw [List.map_cons, List.headD_cons] at points
      have linkedBatch := isBatch ▸ linked
      have headNonzero : batch.headD 0 ≠ 0 := headEq ▸ linkedBatch.1
      have batchLength : batch.length = blocks.length + 1 := by
        rw [isBatch, List.length_cons]
      rw [List.flatten_cons, List.length_append] at enough
      obtain ⟨_, walked, _, _⟩ := @walk_eq _ _ _ _ _ (fuel + 1) linkedBatch.2.2
        linkedBatch.2.1 (by omega)
      have pointsNext : state.heap (.nextBatch (batch.headD 0)) =
          (rest.map (·.headD 0)).headD 0 := batchesAt.linked.2.1
      rw [unlinkBatches, points, if_neg headNonzero, headEq, walked]
      simp only [Option.bind_eq_bind, Option.bind_some, ← isBatch]
      rw [← headEq]
      have restFresh : ∀ block ∈ rest.flatten, block ∉ used := fun block member =>
        fresh block (List.flatten_cons ▸ List.mem_append_right _ member)
      have batchFresh : ∀ block ∈ batch, block ∉ used := fun block member =>
        fresh block (List.flatten_cons ▸ List.mem_append_left _ member)
      cases split : keeps matching batch with
      | true =>
          have noMatch : batch.any matching = false := Bool.not_eq_true' _ ▸ split
          obtain ⟨keptNodup, passed⟩ :=
            unlinking.pass points headNonzero nonempty nodup batchFresh
          obtain ⟨newPbatch, after, newUsed, result, unlinked⟩ := @induction _ _ _ _ _ fuel
            passed batchesAt.tail pointsNext keptNodup restFresh (by omega)
          rw [noMatch, if_neg Bool.false_ne_true]
          exact ⟨newPbatch, after, newUsed, result,
            unlinked.of_pass split (List.nodup_append.mp nodup).2.1 batchFresh⟩
      | false =>
          have hasMatch : batch.any matching = true := by
            rwa [keeps, Bool.not_eq_false'] at split
          obtain ⟨added, addedResult, readdedState, restAt, moreFresh, frame⟩ :=
            @Unlinking.readd matching batchSize _ _ _ _ _ _ _ (fuel + 1) unlinking batchesAt nodup fresh (by omega)
          obtain ⟨newPbatch, after, newUsed, result, unlinked⟩ := @induction _ _ _ _ _ fuel
            readdedState restAt ((Function.update_self _ _ _).trans pointsNext)
            (nodup.sublist ((List.sublist_append_right _ _).append_left kept))
            moreFresh (by omega)
          rw [hasMatch, if_pos rfl, addedResult]
          exact ⟨newPbatch, after, newUsed, result,
            unlinked.of_readd split unlinking.keptCell frame⟩

/-! ## Giving the lists back -/

/-- The lists at the cells of the central cache. -/
structure CentralAt (heap : Heap) (batches : List (List Nat)) (loose : List Nat) :
    Prop where
  ccFirstBatch : heap .ccFirstBatch = (batches.map (·.headD 0)).headD 0
  batchesAt : BatchesAt heap batches
  ccFreeList : heap .ccFreeList = loose.headD 0
  linked : Linked .next heap loose

/-- The detached lists and, beside them, those of the central cache. -/
structure SqueezeHeap (heap : Heap) (batches : List (List Nat)) (loose : List Nat)
    (ccBatches : List (List Nat)) (ccFree : List Nat) : Prop where
  firstBatch : heap .firstBatch = (batches.map (·.headD 0)).headD 0
  batchesAt : BatchesAt heap batches
  freeList : heap .freeList = loose.headD 0
  linked : Linked .next heap loose
  central : CentralAt heap ccBatches ccFree
  nodup : (batches.flatten ++ loose ++ (ccBatches.flatten ++ ccFree)).Nodup

theorem heads_sublist {batches : List (List Nat)}
    (nonempty : ∀ batch ∈ batches, batch ≠ []) :
    (batches.map (·.headD 0)).Sublist batches.flatten := by
  induction batches with
  | nil => exact List.Sublist.refl _
  | cons batch rest induction =>
      obtain ⟨head, blocks, isBatch⟩ :=
        List.exists_cons_of_ne_nil (nonempty batch List.mem_cons_self)
      rw [List.map_cons, List.flatten_cons, isBatch, List.headD_cons, List.cons_append]
      exact ((induction fun other member =>
        nonempty other (List.mem_cons_of_mem _ member)).trans
          (List.sublist_append_right _ _)).cons_cons head

/-- The cursors once both loops are done. -/
structure Sorted (heap : Heap) (kept : List (List Nat)) (left used : List Nat)
    (pbatch : Cell) (state : Relink) : Prop where
  passed : Passed .nextBatch state.heap .firstBatch (kept.map (·.headD 0)) pbatch
  pbatchNull : state.heap pbatch = 0
  relinking : Relinking used left state
  ablockNull : state.heap state.ablock = 0
  nodup : (kept.map (·.headD 0)).Nodup
  fresh : ∀ block ∈ kept.flatten, block ∉ used
  frame : ∀ cell, Outside used cell → ¬ KeptCell (kept.map (·.headD 0)) cell →
    state.heap cell = heap cell

/-- The blocks that the squeeze puts together anew. -/
def leftover (matching : Nat → Bool) (batchSize : Nat) (batches : List (List Nat))
    (loose : List Nat) : List Nat :=
  (readded matching batches ++ loose.filter fun block => !matching block).foldl
    (accumulate batchSize) []

theorem outside_cell {used : List Nat} {cell : Cell}
    (isList : cell = .ccFirstBatch ∨ cell = .ccFreeList ∨ cell = .firstBatch ∨
      cell = .freeList) : Outside used cell := by
  rcases isList with rfl | rfl | rfl | rfl <;>
    exact ⟨Cell.noConfusion, Cell.noConfusion, fun _ _ =>
      ⟨Cell.noConfusion, Cell.noConfusion⟩⟩

theorem keptCell_next {heads : List Nat} {block : Nat} : ¬ KeptCell heads (.next block) := by
  intro kept
  rcases kept with isFirst | ⟨_, _, isLink⟩
  · cases isFirst
  · cases isLink

theorem sorted_of_squeezeHeap {heap : Heap} {batches : List (List Nat)} {loose : List Nat}
    {ccBatches : List (List Nat)} {ccFree : List Nat} {fuel : Nat}
    (squeezeHeap : SqueezeHeap heap batches loose ccBatches ccFree)
    (enough : batches.flatten.length + loose.length < fuel) :
    ∃ pbatch unlinked state used,
      unlinkBatches matching batchSize fuel .firstBatch {
        heap := Function.update (Function.update heap .additionalBatchesList 0)
          .additionalBlocksList 0
        abatch := .additionalBatchesList
        ablock := .additionalBlocksList
        additionalBlocksListSize := 0 } = some (pbatch, unlinked) ∧
      readdBlocks matching batchSize fuel (unlinked.heap .freeList) unlinked =
        some state ∧
      Sorted heap (batches.filter (keeps matching))
        (leftover matching batchSize batches loose) used pbatch state ∧
      ∀ block ∈ used, block ∈ batches.flatten ++ loose := by
  obtain ⟨detachedNodup, _, _⟩ := List.nodup_append.mp squeezeHeap.nodup
  obtain ⟨batchesNodup, looseNodup, disjoint⟩ := List.nodup_append.mp detachedNodup
  let start : Relink := {
    heap := Function.update (Function.update heap .additionalBatchesList 0)
      .additionalBlocksList 0
    abatch := .additionalBatchesList
    ablock := .additionalBlocksList
    additionalBlocksListSize := 0 }
  have startFrame : ∀ used cell, Outside used cell → start.heap cell = heap cell :=
    fun used cell outside =>
      (Function.update_of_ne outside.2.1 _ _).trans (Function.update_of_ne outside.1 _ _)
  have unlinking : Unlinking [] [] [] .firstBatch start :=
    ⟨.nil, ⟨.nil, rfl, List.nodup_nil, (fun _ member => nomatch member), .inl rfl⟩,
      by simp [start], List.nodup_nil, fun _ member => nomatch member⟩
  have batchesAt : BatchesAt start.heap batches := squeezeHeap.batchesAt.congr
    (fun _ _ => startFrame [] _ (outside_next List.not_mem_nil))
    (fun _ _ => startFrame [] _ (outside_nextBatch List.not_mem_nil))
  obtain ⟨pbatch, unlinked, newUsed, result, spec⟩ :=
    @unlinkBatches_spec matching batchSize _ _ _ _ _ _ fuel
      unlinking batchesAt
      ((startFrame [] _ (outside_firstBatch _)).trans squeezeHeap.firstBatch)
      (by simpa using batchesNodup) (fun _ _ => List.not_mem_nil) (by omega)
  have subset : ∀ block ∈ newUsed, block ∈ batches.flatten := fun block member =>
    (spec.subset block member).resolve_left List.not_mem_nil
  have keptMem : ∀ block ∈ (batches.filter (keeps matching)).flatten,
      block ∈ batches.flatten := by
    intro block member
    obtain ⟨batch, isBatch, inBatch⟩ := List.mem_flatten.mp member
    exact List.mem_flatten.mpr ⟨batch, List.mem_of_mem_filter isBatch, inBatch⟩
  have headsMem : ∀ head ∈ (batches.filter (keeps matching)).map (·.headD 0),
      head ∈ (batches.filter (keeps matching)).flatten := fun head member =>
    (heads_sublist fun batch isBatch => (squeezeHeap.batchesAt.blocks batch
      (List.mem_of_mem_filter isBatch)).1).subset member
  have looseFresh : ∀ block ∈ loose, block ∉ newUsed := fun block member inUsed =>
    disjoint block (subset block inUsed) block member rfl
  have freshMore : ∀ block ∈ (batches.filter (keeps matching)).flatten,
      block ∉ newUsed ++ loose := by
    intro block member inMore
    rcases List.mem_append.mp inMore with inUsed | inLoose
    · exact spec.fresh block member inUsed
    · exact disjoint block (keptMem block member) block inLoose rfl
  have unlinkedFrame : ∀ cell, Outside newUsed cell →
      ¬ KeptCell ((batches.filter (keeps matching)).map (·.headD 0)) cell →
      unlinked.heap cell = heap cell := fun cell outside notKept =>
    (spec.frame cell outside (by simpa using notKept)).trans (startFrame newUsed cell outside)
  have freeListEq : unlinked.heap .freeList = loose.headD 0 := by
    rw [← squeezeHeap.freeList]
    refine unlinkedFrame _ (outside_cell (by simp)) ?_
    intro kept
    rcases kept with isFirst | ⟨_, _, isLink⟩
    · cases isFirst
    · cases isLink
  obtain ⟨state, readdedEq, relinking, isNull, frame⟩ :=
    @readdBlocks_spec _ _ _ _ _ _ fuel
      (squeezeHeap.linked.congr fun block member =>
        unlinkedFrame _ (outside_next (looseFresh block member)) keptCell_next)
      looseNodup
      (fun block member => ⟨fun inTaken => looseFresh block member
        (spec.unlinking.relinking.subset block inTaken), List.mem_append_right _ member⟩)
      (by omega) (spec.unlinking.relinking.mono fun _ => List.mem_append_left _)
      spec.unlinking.null
  have keptOutside : ∀ cell, KeptCell ((batches.filter (keeps matching)).map (·.headD 0))
      cell → Outside (newUsed ++ loose) cell := by
    intro cell kept
    rcases kept with isFirst | ⟨head, member, isLink⟩
    · exact isFirst ▸ outside_firstBatch _
    · exact isLink ▸ outside_nextBatch (freshMore head (headsMem head member))
  have headsEq : [] ++ (batches.filter (keeps matching)).map (·.headD 0) =
      (batches.filter (keeps matching)).map (·.headD 0) := List.nil_append _
  have passed := headsEq ▸ spec.unlinking.passed
  have pbatchKept := headsEq ▸ spec.unlinking.keptCell
  refine ⟨pbatch, unlinked, state, newUsed ++ loose, result, freeListEq ▸ readdedEq,
    ⟨?_, ?_, ?_, isNull, headsEq ▸ spec.unlinking.nodup, freshMore, ?_⟩, ?_⟩
  · exact passed.congr (frame _ (outside_firstBatch _)) fun head member =>
      frame _ (keptOutside _ (.inr ⟨head, member, rfl⟩))
  · exact (frame _ (keptOutside _ pbatchKept)).trans spec.null
  · rw [leftover, List.foldl_append]
    exact relinking
  · intro cell outside notKept
    exact (frame cell outside).trans (unlinkedFrame cell
      (outside.mono fun _ => List.mem_append_left _) notKept)
  · intro block member
    rcases List.mem_append.mp member with inUsed | inLoose
    · exact List.mem_append_left _ (subset block inUsed)
    · exact List.mem_append_right _ inLoose

end Loops

/-- The cursors that `GIVE_LISTS_BACK_TO_CC` is entered with. -/
structure GivenBack (locals : Locals) (kept : List (List Nat)) (left : List Nat)
    (ccBatches : List (List Nat)) (ccFree newFree : List Nat) : Prop where
  passed : Passed .nextBatch locals.heap .firstBatch (kept.map (·.headD 0)) locals.pbatch
  blocks : ∀ batch ∈ kept, batch ≠ [] ∧ Linked .next locals.heap batch
  loose : Passed .next locals.heap .freeList left locals.pblock ∧
      newFree = left ++ ccFree ∨
    left = [] ∧ locals.pblock = .additionalBlocksList ∧ locals.heap .freeList = 0 ∧
      newFree = []
  central : CentralAt locals.heap ccBatches ccFree
  nodup : (kept.flatten ++ left ++ (ccBatches.flatten ++ ccFree)).Nodup

namespace GivenBack

variable {locals : Locals} {kept : List (List Nat)} {left : List Nat}
  {ccBatches : List (List Nat)} {ccFree newFree : List Nat}

theorem keptCell (givenBack : GivenBack locals kept left ccBatches ccFree newFree) :
    KeptCell (kept.map (·.headD 0)) locals.pbatch := by
  rcases givenBack.passed.cell_cases with ⟨_, isStart⟩ | isLink
  · exact .inl isStart
  · exact .inr isLink

theorem pblock_cases (givenBack : GivenBack locals kept left ccBatches ccFree newFree) :
    locals.pblock = .freeList ∨ locals.pblock = .additionalBlocksList ∨
      ∃ block ∈ left, locals.pblock = .next block := by
  rcases givenBack.loose with ⟨passed, _⟩ | ⟨_, isList, _⟩
  · rcases passed.cell_cases with ⟨_, isStart⟩ | isLink
    · exact .inl isStart
    · exact .inr (.inr isLink)
  · exact .inr (.inl isList)

theorem next_same (givenBack : GivenBack locals kept left ccBatches ccFree newFree)
    {block : Nat} (fresh : block ∉ left) :
    giveListsBack locals (.next block) = locals.heap (.next block) := by
  have notPbatch : Cell.next block ≠ locals.pbatch :=
    fun equal => keptCell_next (equal ▸ givenBack.keptCell)
  have notPblock : Cell.next block ≠ locals.pblock := by
    intro equal
    rcases givenBack.pblock_cases with isList | isList | ⟨other, member, isLink⟩
    · cases equal.trans isList
    · cases equal.trans isList
    · exact fresh (Cell.next.inj (equal.trans isLink) ▸ member)
  simp only [giveListsBack]
  rw [Function.update_of_ne Cell.noConfusion, Function.update_of_ne notPblock,
    Function.update_of_ne Cell.noConfusion, Function.update_of_ne notPbatch]

/-- The batches are in front of those of the central cache. -/
theorem batches (givenBack : GivenBack locals kept left ccBatches ccFree newFree) :
    giveListsBack locals .ccFirstBatch =
        ((kept ++ ccBatches).map (·.headD 0)).headD 0 ∧
      Linked .nextBatch (giveListsBack locals) ((kept ++ ccBatches).map (·.headD 0)) := by
  obtain ⟨keptNodup, _, disjoint⟩ := List.nodup_append.mp givenBack.nodup
  have headsMem := fun head (member : head ∈ kept.map (·.headD 0)) =>
    (heads_sublist fun batch isBatch => (givenBack.blocks batch isBatch).1).subset member
  have ccHeadsMem := fun head (member : head ∈ ccBatches.map (·.headD 0)) =>
    (heads_sublist fun batch isBatch =>
      (givenBack.central.batchesAt.blocks batch isBatch).1).subset member
  let batched := Function.update locals.heap locals.pbatch (locals.heap .ccFirstBatch)
  have passed : Passed .nextBatch batched .firstBatch (kept.map (·.headD 0))
      locals.pbatch :=
    givenBack.passed.write ((List.nodup_append.mp keptNodup).1.sublist (heads_sublist
      fun batch isBatch => (givenBack.blocks batch isBatch).1)) nextBatch_injective
      (fun _ => Cell.noConfusion) _
  have ccLinked : Linked .nextBatch batched (ccBatches.map (·.headD 0)) :=
    givenBack.central.batchesAt.linked.congr fun head member => by
      refine Function.update_of_ne (fun equal => ?_) _ _
      rcases givenBack.keptCell with isFirst | ⟨other, isKept, isLink⟩
      · cases equal.trans isFirst
      · refine disjoint head ?_ head (List.mem_append_left _ (ccHeadsMem head member)) rfl
        rw [Cell.nextBatch.inj (equal.trans isLink)]
        exact List.mem_append_left _ (headsMem other isKept)
  obtain ⟨linked, firstBatch⟩ := passed.linked ccLinked
    ((Function.update_self _ _ _).trans givenBack.central.ccFirstBatch)
  have notPblock : ∀ head, Cell.nextBatch head ≠ locals.pblock := by
    intro head equal
    rcases givenBack.pblock_cases with isList | isList | ⟨_, _, isLink⟩
    · cases equal.trans isList
    · cases equal.trans isList
    · cases equal.trans isLink
  have ccNotPblock : Cell.ccFirstBatch ≠ locals.pblock := by
    intro equal
    rcases givenBack.pblock_cases with isList | isList | ⟨_, _, isLink⟩
    · cases equal.trans isList
    · cases equal.trans isList
    · cases equal.trans isLink
  rw [List.map_append]
  refine ⟨?_, linked.congr fun head _ => ?_⟩
  · simp only [giveListsBack]
    rw [Function.update_of_ne Cell.noConfusion, Function.update_of_ne ccNotPblock,
      Function.update_self]
    exact firstBatch
  · simp only [giveListsBack]
    rw [Function.update_of_ne Cell.noConfusion, Function.update_of_ne (notPblock head),
      Function.update_of_ne Cell.noConfusion]

/-- The loose blocks are in front of those of the central cache, or both are gone. -/
theorem freeList (givenBack : GivenBack locals kept left ccBatches ccFree newFree) :
    giveListsBack locals .ccFreeList = newFree.headD 0 ∧
      Linked .next (giveListsBack locals) newFree := by
  obtain ⟨keptNodup, _, disjoint⟩ := List.nodup_append.mp givenBack.nodup
  let batched := Function.update locals.heap locals.pbatch (locals.heap .ccFirstBatch)
  let before := Function.update batched .ccFirstBatch (batched .firstBatch)
  have notPbatch : ∀ cell, cell ≠ .firstBatch → (∀ head, cell ≠ .nextBatch head) →
      cell ≠ .ccFirstBatch → before cell = locals.heap cell := by
    intro cell notFirst notLink notCentral
    refine (Function.update_of_ne notCentral _ _).trans
      (Function.update_of_ne (fun equal => ?_) _ _)
    rcases givenBack.keptCell with isFirst | ⟨head, _, isLink⟩
    · exact notFirst (equal.trans isFirst)
    · exact notLink head (equal.trans isLink)
  have sameNext := fun block => notPbatch (.next block) Cell.noConfusion
    (fun _ => Cell.noConfusion) Cell.noConfusion
  have sameFree := notPbatch .freeList Cell.noConfusion (fun _ => Cell.noConfusion)
    Cell.noConfusion
  have sameCentral := notPbatch .ccFreeList Cell.noConfusion (fun _ => Cell.noConfusion)
    Cell.noConfusion
  rcases givenBack.loose with ⟨passed, rfl⟩ | ⟨_, isList, isNull, rfl⟩
  · have ccFresh : ∀ block ∈ ccFree, block ∉ left := fun block member inLeft =>
      disjoint block (List.mem_append_right _ inLeft) block
        (List.mem_append_right _ member) rfl
    have passedBefore : Passed .next before .freeList left locals.pblock :=
      passed.congr sameFree fun block _ => sameNext block
    have hung := passedBefore.write (List.nodup_append.mp keptNodup).2.1 next_injective
      (fun _ => Cell.noConfusion) (before .ccFreeList)
    have ccLinked : Linked .next
        (Function.update before locals.pblock (before .ccFreeList)) ccFree :=
      givenBack.central.linked.congr fun block member => by
        refine (Function.update_of_ne (fun equal => ?_) _ _).trans (sameNext block)
        rcases passed.cell_cases with ⟨_, isStart⟩ | ⟨other, inLeft, isLink⟩
        · cases equal.trans isStart
        · exact ccFresh block member (Cell.next.inj (equal.trans isLink) ▸ inLeft)
    obtain ⟨linked, freeListEq⟩ := hung.linked ccLinked
      (((Function.update_self _ _ _).trans sameCentral).trans givenBack.central.ccFreeList)
    have result : giveListsBack locals =
        Function.update (Function.update before locals.pblock (before .ccFreeList))
          .ccFreeList
          (Function.update before locals.pblock (before .ccFreeList) .freeList) := rfl
    rw [result, Function.update_self]
    exact ⟨freeListEq, linked.congr fun _ _ => Function.update_of_ne Cell.noConfusion _ _⟩
  · refine ⟨?_, trivial⟩
    simp only [giveListsBack]
    rw [Function.update_self, isList, Function.update_of_ne Cell.noConfusion]
    exact sameFree.trans isNull

theorem spec (givenBack : GivenBack locals kept left ccBatches ccFree newFree) :
    CentralAt (giveListsBack locals) (kept ++ ccBatches) newFree := by
  obtain ⟨keptNodup, _, disjoint⟩ := List.nodup_append.mp givenBack.nodup
  obtain ⟨_, _, keptDisjoint⟩ := List.nodup_append.mp keptNodup
  obtain ⟨ccFirstBatch, linked⟩ := givenBack.batches
  obtain ⟨ccFreeList, looseLinked⟩ := givenBack.freeList
  refine ⟨ccFirstBatch, ⟨linked, ?_⟩, ccFreeList, looseLinked⟩
  intro batch member
  rcases List.mem_append.mp member with isKept | isCentral
  · obtain ⟨nonempty, batchLinked⟩ := givenBack.blocks batch isKept
    exact ⟨nonempty, batchLinked.congr fun block inBatch => givenBack.next_same
      fun inLeft => keptDisjoint block (List.mem_flatten.mpr ⟨batch, isKept, inBatch⟩)
        block inLeft rfl⟩
  · obtain ⟨nonempty, batchLinked⟩ := givenBack.central.batchesAt.blocks batch isCentral
    exact ⟨nonempty, batchLinked.congr fun block inBatch => givenBack.next_same
      fun inLeft => disjoint block (List.mem_append_right _ inLeft) block
        (List.mem_append_left _ (List.mem_flatten.mpr ⟨batch, isCentral, inBatch⟩)) rfl⟩

end GivenBack

section Squeezed

variable {heap : Heap} {batches : List (List Nat)} {loose : List Nat}
  {ccBatches : List (List Nat)} {ccFree : List Nat} {fuel : Nat}

theorem Sorted.givenBack {kept : List (List Nat)} {left used : List Nat} {pbatch : Cell}
    {state : Relink} (sorted : Sorted heap kept left used pbatch state)
    (squeezeHeap : SqueezeHeap heap batches loose ccBatches ccFree)
    (keptBatches : ∀ batch ∈ kept, batch ∈ batches)
    (nodup : kept.flatten.Nodup)
    (subset : ∀ block ∈ used, block ∈ batches.flatten ++ loose)
    (joined : Relink) (isJoined : joined = state.write state.abatch (state.heap pbatch))
    (added : Relink)
    (isAdded : added = joined.write pbatch (joined.heap .additionalBatchesList)) :
    GivenBack {
      heap := Function.update added.heap .freeList (added.heap .additionalBlocksList)
      pbatch
      pblock := state.ablock
      freeListSize := state.additionalBlocksListSize }
      kept left ccBatches ccFree (if left = [] then [] else left ++ ccFree) := by
  have relinking := sorted.relinking
  have keptMem : ∀ block ∈ kept.flatten, block ∈ batches.flatten := by
    intro block member
    obtain ⟨batch, isBatch, inBatch⟩ := List.mem_flatten.mp member
    exact List.mem_flatten.mpr ⟨batch, keptBatches batch isBatch, inBatch⟩
  have nonempty : ∀ batch ∈ kept, batch ≠ [] := fun batch isBatch =>
    (squeezeHeap.batchesAt.blocks batch (keptBatches batch isBatch)).1
  obtain ⟨_, _, ccDisjoint⟩ := List.nodup_append.mp squeezeHeap.nodup
  have pbatchKept : KeptCell (kept.map (·.headD 0)) pbatch := by
    rcases sorted.passed.cell_cases with ⟨_, isStart⟩ | isLink
    · exact .inl isStart
    · exact .inr isLink
  -- the cells that joining the lists leaves alone
  have sameAdded : ∀ cell, cell ≠ state.abatch → cell ≠ pbatch →
      added.heap cell = state.heap cell := by
    intro cell notAbatch notPbatch
    rw [isAdded, isJoined]
    exact (Function.update_of_ne notPbatch _ _).trans (Function.update_of_ne notAbatch _ _)
  have freeListEq : Function.update added.heap .freeList
      (added.heap .additionalBlocksList) .freeList = added.heap .additionalBlocksList :=
    Function.update_self _ _ _
  have unwritten : ∀ cell, cell ≠ .freeList → Function.update added.heap .freeList
      (added.heap .additionalBlocksList) cell = added.heap cell :=
    fun cell different => Function.update_of_ne different _ _
  have same : ∀ cell, cell ≠ .freeList → cell ≠ state.abatch → cell ≠ pbatch →
      Function.update added.heap .freeList (added.heap .additionalBlocksList) cell =
        state.heap cell := fun cell notFree notAbatch notPbatch =>
    (unwritten cell notFree).trans (sameAdded cell notAbatch notPbatch)
  have nextNe : ∀ block, Cell.next block ≠ pbatch := fun block equal =>
    keptCell_next (equal ▸ pbatchKept)
  have listAbatch : Cell.additionalBlocksList ≠ state.abatch := by
    intro equal
    rcases relinking.abatch with isList | ⟨_, _, isBlock⟩
    · cases equal.trans isList
    · cases equal.trans isBlock
  have listPbatch : Cell.additionalBlocksList ≠ pbatch := by
    intro equal
    rcases pbatchKept with isFirst | ⟨_, _, isLink⟩
    · cases equal.trans isFirst
    · cases equal.trans isLink
  have sameNext : ∀ block, Function.update added.heap .freeList
      (added.heap .additionalBlocksList) (.next block) = state.heap (.next block) :=
    fun block => same _ Cell.noConfusion (relinking.next_ne_abatch block) (nextNe block)
  have sameOutside : ∀ block ∉ used, state.heap (.next block) = heap (.next block) :=
    fun block fresh => sorted.frame _ (outside_next fresh) keptCell_next
  refine ⟨?_, ?_, ?_, ?_, ?_⟩
  · -- first `*abatch`, then `*pbatch`, then `freeList`
    have afterAbatch : Passed .nextBatch joined.heap .firstBatch (kept.map (·.headD 0))
        pbatch := by
      rw [isJoined]
      exact sorted.passed.congr
        (Function.update_of_ne (relinking.abatch_ne (outside_firstBatch used)) _ _)
        fun head member => Function.update_of_ne (relinking.abatch_ne
          (outside_nextBatch (sorted.fresh head ((heads_sublist nonempty).subset member)))) _ _
    have afterPbatch := afterAbatch.write sorted.nodup nextBatch_injective
      (fun _ => Cell.noConfusion) (joined.heap .additionalBatchesList)
    have isWritten : Function.update joined.heap pbatch
        (joined.heap .additionalBatchesList) = added.heap := by
      rw [isAdded]
      rfl
    rw [isWritten] at afterPbatch
    exact afterPbatch.congr (unwritten .firstBatch Cell.noConfusion)
      fun head _ => unwritten (.nextBatch head) Cell.noConfusion
  · intro batch isBatch
    obtain ⟨batchNonempty, linked⟩ :=
      squeezeHeap.batchesAt.blocks batch (keptBatches batch isBatch)
    exact ⟨batchNonempty, linked.congr fun block member => (sameNext block).trans
      (sameOutside block
        (sorted.fresh block (List.mem_flatten.mpr ⟨batch, isBatch, member⟩)))⟩
  · by_cases isEmpty : left = []
    · have isStart : state.ablock = .additionalBlocksList := by
        rcases relinking.ablock_cases with isStart | ⟨_, member, _⟩
        · exact isStart
        · rw [isEmpty] at member
          cases member
      refine .inr ⟨isEmpty, isStart, freeListEq.trans ?_, if_pos isEmpty⟩
      rw [sameAdded _ listAbatch listPbatch, ← isStart]
      exact sorted.ablockNull
    · refine .inl ⟨?_, if_neg isEmpty⟩
      refine (relinking.passed.congr (same _ Cell.noConfusion listAbatch listPbatch)
        fun block _ => sameNext block).restart isEmpty ?_
      exact freeListEq.trans (unwritten _ Cell.noConfusion).symm
  · have ccFresh : ∀ block ∈ ccBatches.flatten ++ ccFree, block ∉ used :=
      fun block member inUsed => ccDisjoint block (subset block inUsed) block member rfl
    have sameList : ∀ cell, cell = .ccFirstBatch ∨ cell = .ccFreeList →
        Function.update added.heap .freeList (added.heap .additionalBlocksList) cell =
          heap cell := by
      intro cell isList
      have outside : Outside used cell := outside_cell (by tauto)
      have notKept : ¬ KeptCell (kept.map (·.headD 0)) cell := by
        intro keptCell
        rcases isList with rfl | rfl <;> rcases keptCell with isFirst | ⟨_, _, isLink⟩ <;>
          contradiction
      rw [same cell (by rcases isList with rfl | rfl <;> exact Cell.noConfusion)
        (relinking.abatch_ne outside) (fun equal => notKept (equal ▸ pbatchKept))]
      exact sorted.frame cell outside notKept
    have central := squeezeHeap.central
    refine ⟨(sameList _ (.inl rfl)).trans central.ccFirstBatch,
      central.batchesAt.congr ?_ ?_, (sameList _ (.inr rfl)).trans central.ccFreeList,
      central.linked.congr ?_⟩
    · intro block member
      exact (sameNext block).trans (sameOutside block
        (ccFresh block (List.mem_append_left _ member)))
    · intro block member
      have fresh := ccFresh block (List.mem_append_left _ member)
      have notKept : ¬ KeptCell (kept.map (·.headD 0)) (.nextBatch block) := by
        intro keptCell
        rcases keptCell with isFirst | ⟨head, isHead, isLink⟩
        · cases isFirst
        · refine ccDisjoint block (List.mem_append_left _ (keptMem block ?_)) block
            (List.mem_append_left _ member) rfl
          rw [Cell.nextBatch.inj isLink]
          exact (heads_sublist nonempty).subset isHead
      exact (same _ Cell.noConfusion (relinking.abatch_ne (outside_nextBatch fresh))
        (fun equal => notKept (equal ▸ pbatchKept))).trans
          (sorted.frame _ (outside_nextBatch fresh) notKept)
    · intro block member
      exact (sameNext block).trans (sameOutside block
        (ccFresh block (List.mem_append_right _ member)))
  · refine List.nodup_append.mpr ⟨List.nodup_append.mpr ⟨nodup, relinking.nodup, ?_⟩,
      (List.nodup_append.mp squeezeHeap.nodup).2.1, ?_⟩
    · intro block member other inLeft equal
      exact sorted.fresh block member (equal ▸ relinking.subset other inLeft)
    · intro block member other inCentral
      refine ccDisjoint block ?_ other inCentral
      rcases List.mem_append.mp member with member | member
      · exact List.mem_append_left _ (keptMem block member)
      · exact subset block (relinking.subset block member)

/-- What `ltsqueeze` gives back when a chunk is released: the untouched batches and
the last additional blocks. The blocks of the additional batches are in no list, and
when no additional block is left over those of `cc->freeList` are not either. -/
theorem unlinkBlocks_spec {matching : Nat → Bool} {batchSize : Nat}
    (squeezeHeap : SqueezeHeap heap batches loose ccBatches ccFree)
    (enough : batches.flatten.length + loose.length < fuel) :
    ∃ locals, unlinkBlocks matching batchSize fuel heap = some locals ∧
      locals.freeListSize = (leftover matching batchSize batches loose).length ∧
      CentralAt (giveListsBack locals) (batches.filter (keeps matching) ++ ccBatches)
        (if leftover matching batchSize batches loose = [] then []
        else leftover matching batchSize batches loose ++ ccFree) := by
  obtain ⟨pbatch, unlinked, state, used, unlinkedEq, stateEq, sorted, subset⟩ :=
    sorted_of_squeezeHeap squeezeHeap enough
  have nodup : (batches.filter (keeps matching)).flatten.Nodup :=
    (List.nodup_append.mp (List.nodup_append.mp squeezeHeap.nodup).1).1.sublist
      List.filter_sublist.flatten
  have givenBack := sorted.givenBack squeezeHeap
    (fun batch member => List.mem_of_mem_filter member) nodup subset _ rfl _ rfl
  refine ⟨_, ?_, sorted.relinking.size, givenBack.spec⟩
  simp only [unlinkBlocks, unlinkedEq, stateEq, Option.bind_eq_bind, Option.bind_some]
  rfl

/-- Without a chunk to release every list is given back as it was. -/
theorem walkToEnds_spec (squeezeHeap : SqueezeHeap heap batches loose ccBatches ccFree)
    (enough : batches.flatten.length + loose.length < fuel) (freeListSize : Nat) :
    ∃ locals, walkToEnds fuel heap freeListSize = some locals ∧
      locals.freeListSize = freeListSize ∧
      CentralAt (giveListsBack locals) (batches ++ ccBatches) (loose ++ ccFree) := by
  have nonempty := fun batch (member : batch ∈ batches) =>
    (squeezeHeap.batchesAt.blocks batch member).1
  have headsLength : (batches.map (·.headD 0)).length ≤ batches.flatten.length :=
    (heads_sublist nonempty).length_le
  obtain ⟨pbatch, batchWalk, _, batchPassed⟩ := @walk_eq _ _ _ _ _ fuel
    squeezeHeap.batchesAt.linked squeezeHeap.firstBatch (by omega)
  obtain ⟨pblock, blockWalk, _, blockPassed⟩ := @walk_eq _ _ _ _ _ fuel
    squeezeHeap.linked squeezeHeap.freeList (by omega)
  refine ⟨⟨heap, pbatch, pblock, freeListSize⟩, ?_, rfl, ?_⟩
  · simp only [walkToEnds, batchWalk, blockWalk, Option.bind_eq_bind, Option.bind_some]
    rfl
  · exact GivenBack.spec ⟨batchPassed, squeezeHeap.batchesAt.blocks,
      .inl ⟨blockPassed, rfl⟩, squeezeHeap.central, squeezeHeap.nodup⟩

theorem walkBatches_eq {batches : List (List Nat)} (blocks : ∀ batch ∈ batches,
      batch ≠ [] ∧ Linked .next heap batch)
    (enough : ∀ batch ∈ batches, batch.length ≤ fuel) :
    walkBatches heap fuel (batches.map (·.headD 0)) = some batches := by
  induction batches with
  | nil => rfl
  | cons batch rest induction =>
      obtain ⟨nonempty, linked⟩ := blocks batch List.mem_cons_self
      obtain ⟨head, others, isBatch⟩ := List.exists_cons_of_ne_nil nonempty
      have fits := enough batch List.mem_cons_self
      rw [isBatch] at linked fits
      rw [List.length_cons] at fits
      obtain ⟨_, walked, _, _⟩ :=
        @walk_eq _ _ _ _ _ fuel linked.2.2 linked.2.1 (by omega)
      rw [List.map_cons, isBatch, List.headD_cons, walkBatches, walked,
        induction (fun other member => blocks other (List.mem_cons_of_mem _ member))
          (fun other member => enough other (List.mem_cons_of_mem _ member))]
      rfl

theorem readCentral_eq (central : CentralAt heap batches loose)
    (enough : batches.flatten.length + loose.length < fuel) :
    readCentral fuel heap = some (batches, loose) := by
  have nonempty := fun batch (member : batch ∈ batches) =>
    (central.batchesAt.blocks batch member).1
  have headsLength := (heads_sublist nonempty).length_le
  obtain ⟨_, headWalk, _, _⟩ := @walk_eq _ _ _ _ _ fuel central.batchesAt.linked
    central.ccFirstBatch (by omega)
  obtain ⟨_, looseWalk, _, _⟩ := @walk_eq _ _ _ _ _ fuel central.linked
    central.ccFreeList (by omega)
  have batchLength : ∀ batch ∈ batches, batch.length ≤ fuel := fun batch member => by
    have := (List.sublist_flatten_of_mem member).length_le
    omega
  simp only [readCentral, headWalk, looseWalk,
    walkBatches_eq central.batchesAt.blocks batchLength, Option.bind_eq_bind,
    Option.bind_some]
  rfl

theorem squeezeHeap_layLists
    (nodup : (batches.flatten ++ loose ++ (ccBatches.flatten ++ ccFree)).Nodup)
    (nonempty : ∀ batch ∈ batches ++ ccBatches, batch ≠ [])
    (nonzero : ∀ block ∈ batches.flatten ++ loose ++ (ccBatches.flatten ++ ccFree),
      block ≠ 0) :
    SqueezeHeap (layLists batches loose ccBatches ccFree) batches loose ccBatches
      ccFree := by
  have flattenEq : (batches ++ [loose] ++ (ccBatches ++ [ccFree])).flatten =
      batches.flatten ++ loose ++ (ccBatches.flatten ++ ccFree) := by
    simp
  have linked : ∀ blocks ∈ batches ++ [loose] ++ (ccBatches ++ [ccFree]),
      Linked .next (layLists batches loose ccBatches ccFree) blocks := by
    intro blocks isList
    have sublist := List.sublist_flatten_of_mem isList
    rw [flattenEq] at sublist
    exact linked_of_successor (nodup.sublist sublist)
      (fun block member => nonzero block (sublist.subset member))
      fun block member => successorIn_eq (by rwa [flattenEq]) isList member
  have ccNonempty := fun batch (member : batch ∈ ccBatches) =>
    nonempty batch (List.mem_append_right _ member)
  have ownNonempty := fun batch (member : batch ∈ batches) =>
    nonempty batch (List.mem_append_left _ member)
  have headsSublist : (batches.map (·.headD 0) ++ ccBatches.map (·.headD 0)).Sublist
      (batches.flatten ++ loose ++ (ccBatches.flatten ++ ccFree)) :=
    ((heads_sublist ownNonempty).trans (List.sublist_append_left _ _)).append
      ((heads_sublist ccNonempty).trans (List.sublist_append_left _ _))
  have headsLinked : ∀ heads ∈ [batches.map (·.headD 0), ccBatches.map (·.headD 0)],
      Linked .nextBatch (layLists batches loose ccBatches ccFree) heads := by
    intro heads isList
    have headsNodup : [batches.map (·.headD 0), ccBatches.map (·.headD 0)].flatten.Nodup := by
      simpa using nodup.sublist headsSublist
    have sublist := List.sublist_flatten_of_mem isList
    refine linked_of_successor (headsNodup.sublist sublist) (fun head member =>
      nonzero head (headsSublist.subset ?_))
      fun head member => successorIn_eq headsNodup isList member
    simpa using sublist.subset member
  refine ⟨rfl, ⟨headsLinked _ (by simp), fun batch member =>
    ⟨ownNonempty batch member, linked batch (by simp [member])⟩⟩, rfl,
    linked loose (by simp), ⟨rfl, ⟨headsLinked _ (by simp), fun batch member =>
      ⟨ccNonempty batch member, linked batch (by simp [member])⟩⟩, rfl,
      linked ccFree (by simp)⟩, nodup⟩

end Squeezed

end MallocSurvey.Ltalloc
