import MallocSurvey.FcMalloc.Heap
import MallocSurvey.Library.Tiling

/-! # The headers of the pages

`owner` tells for the place of a header which page the block is in. -/

namespace MallocSurvey.FcMalloc.FcHeap

open Library

variable {heap heap' : Heap} {owner : Nat → Option Nat} {page other block start p n a b fuel : Nat}

/-- What the headers say about a block and the one behind it. -/
structure BlockOk (heap : Heap) (owner : Nat → Option Nat) (page block : Nat) : Prop where
  low : page ≤ block
  high : block + heap.size block ≤ page + pageSizeMax
  large : 32 ≤ heap.size block
  multiple : heap.size block % 32 = 0
  sign : (heap.header block).size < 0 ↔ block + heap.size block = page + pageSizeMax
  follow : block + heap.size block ≠ page + pageSizeMax →
    owner (block + heap.size block) = some page ∧
      (heap.header (block + heap.size block)).prevSize = heap.size block

structure Chained (heap : Heap) (owner : Nat → Option Nat) : Prop where
  block : ∀ {a page}, owner a = some page → BlockOk heap owner page a
  isPage : ∀ {a page}, owner a = some page → page ∈ heap.pages
  start : ∀ {page}, page ∈ heap.pages →
    owner page = some page ∧ (heap.header page).prevSize = 0
  ahead : ∀ {a b page other}, owner a = some page → owner b = some other → a < b →
    a + heap.size a ≤ b
  pagesApart : heap.pages.Pairwise fun left right => Apart left pageSizeMax right pageSizeMax
  nonzero : 0 ∉ heap.pages

/-! ## The neighbours -/

namespace BlockOk

theorem next_eq (ok : BlockOk heap owner page block) :
    heap.next block = if block + heap.size block = page + pageSizeMax then none
      else some (block + heap.size block) := by
  have large := ok.large
  have sign := ok.sign
  unfold Heap.next
  unfold Heap.size at large sign ⊢
  by_cases isLast : (heap.header block).size < 0
  · rw [if_pos (by omega), if_pos (sign.mp isLast)]
  · rw [if_neg (by omega), if_neg fun isEnd => isLast (sign.mpr isEnd)]

theorem next_of_ne (ok : BlockOk heap owner page block)
    (inner : block + heap.size block ≠ page + pageSizeMax) :
    heap.next block = some (block + heap.size block) := by
  rw [ok.next_eq, if_neg inner]

theorem next_of_eq (ok : BlockOk heap owner page block)
    (isLast : block + heap.size block = page + pageSizeMax) : heap.next block = none := by
  rw [ok.next_eq, if_pos isLast]

theorem of_next (ok : BlockOk heap owner page block) (isNext : heap.next block = some n) :
    n = block + heap.size block ∧ owner n = some page ∧
      (heap.header n).prevSize = heap.size block := by
  rw [ok.next_eq] at isNext
  split at isNext
  · cases isNext
  · next inner =>
      cases isNext
      exact ⟨rfl, ok.follow inner⟩

theorem lt_end (ok : BlockOk heap owner page block) : block < page + pageSizeMax := by
  have high := ok.high
  have large := ok.large
  omega

theorem size_ne_zero (ok : BlockOk heap owner page block) : (heap.header block).size ≠ 0 := by
  have large := ok.large
  unfold Heap.size at large
  omega

theorem size_ne_bad (ok : BlockOk heap owner page block) : (heap.header block).size ≠ 0xbad := by
  have multiple := ok.multiple
  unfold Heap.size at multiple
  omega

/-- A block stays if its size and what is behind it stay. -/
theorem keep {heap' : Heap} {owner' : Nat → Option Nat} (ok : BlockOk heap owner page block)
    (same : (heap'.header block).size = (heap.header block).size)
    (follow : ∀ place, place = block + heap.size block → owner place = some page →
      (heap.header place).prevSize = heap.size block →
      owner' place = some page ∧ (heap'.header place).prevSize = (heap.header place).prevSize) :
    BlockOk heap' owner' page block := by
  have sameSize : heap'.size block = heap.size block := congrArg Int.natAbs same
  refine ⟨ok.low, sameSize ▸ ok.high, sameSize ▸ ok.large, sameSize ▸ ok.multiple, ?_, ?_⟩
  · rw [same, sameSize]
    exact ok.sign
  · rw [sameSize]
    intro inner
    obtain ⟨isNext, back⟩ := ok.follow inner
    obtain ⟨stays, samePrev⟩ := follow _ rfl isNext back
    exact ⟨stays, samePrev.trans back⟩

end BlockOk

namespace Chained

variable (chained : Chained heap owner)

include chained

theorem apart (isA : owner a = some page) (isB : owner b = some other) (different : a ≠ b) :
    Apart a (heap.size a) b (heap.size b) := by
  rcases Nat.lt_or_gt_of_ne different with before | behind
  · exact .inl (chained.ahead isA isB before)
  · exact .inr (chained.ahead isB isA behind)

theorem ne_zero (isBlock : owner block = some page) : block ≠ 0 := by
  have low := (chained.block isBlock).low
  have isPage := chained.isPage isBlock
  intro isZero
  have pageZero : page = 0 := by omega
  exact chained.nonzero (pageZero ▸ isPage)

theorem page_nodup : heap.pages.Nodup := by
  refine chained.pagesApart.imp ?_
  rintro left right apart rfl
  unfold Apart pageSizeMax at apart
  omega

/-- Every block but the first one of its page is behind another one. -/
theorem behind_of (isBlock : owner block = some page) (isStart : owner start = some page)
    (before : start < block) (enough : block - start ≤ fuel) :
    ∃ p, owner p = some page ∧ p + heap.size p = block ∧
      (heap.header block).prevSize = heap.size p := by
  induction fuel generalizing start with
  | zero => omega
  | succ fuel induction =>
      have ok := chained.block isStart
      have large := ok.large
      have reach := chained.ahead isStart isBlock before
      have bound := (chained.block isBlock).lt_end
      have inner : start + heap.size start ≠ page + pageSizeMax := by omega
      obtain ⟨isNext, back⟩ := ok.follow inner
      by_cases isHere : start + heap.size start = block
      · exact ⟨start, isStart, isHere, isHere ▸ back⟩
      · exact induction isNext (by omega) (by omega)

theorem behind (isBlock : owner block = some page) (notFirst : block ≠ page) :
    ∃ p, owner p = some page ∧ p + heap.size p = block ∧
      (heap.header block).prevSize = heap.size p := by
  have low := (chained.block isBlock).low
  have isStart := (chained.start (chained.isPage isBlock)).1
  exact chained.behind_of isBlock isStart (by omega) (Nat.le_refl _)

theorem prev_of_page (isPage : page ∈ heap.pages) : heap.prev page = none := by
  unfold Heap.prev
  rw [(chained.start isPage).2]
  rfl

theorem prev_of_ne (isBlock : owner block = some page) (notFirst : block ≠ page) :
    ∃ p, heap.prev block = some p ∧ owner p = some page ∧ p + heap.size p = block ∧
      heap.next p = some block := by
  obtain ⟨p, isPrev, place, back⟩ := chained.behind isBlock notFirst
  have ok := chained.block isPrev
  have large := ok.large
  refine ⟨p, ?_, isPrev, place, ?_⟩
  · unfold Heap.prev
    rw [back, if_neg (by omega), Int.toNat_natCast, ← place, Nat.add_sub_cancel]
  · have bound := (chained.block isBlock).lt_end
    rw [ok.next_of_ne (by omega), place]

theorem of_prev (isBlock : owner block = some page) (isPrev : heap.prev block = some p) :
    owner p = some page ∧ p + heap.size p = block ∧ heap.next p = some block := by
  by_cases isFirst : block = page
  · rw [isFirst, chained.prev_of_page (chained.isPage isBlock)] at isPrev
    cases isPrev
  · obtain ⟨q, isQ, facts⟩ := chained.prev_of_ne isBlock isFirst
    rw [isPrev] at isQ
    cases isQ
    exact facts

/-- `next` and `prev` are inverse to each other. -/
theorem prev_next (isBlock : owner block = some page) (isNext : heap.next block = some n) :
    heap.prev n = some block := by
  have ok := chained.block isBlock
  obtain ⟨place, _, back⟩ := ok.of_next isNext
  have large := ok.large
  unfold Heap.prev
  rw [back, if_neg (by omega), Int.toNat_natCast, place, Nat.add_sub_cancel]

/-! ## The walks along a page -/

theorem head_eq (isBlock : owner block = some page) (enough : block - page < fuel) :
    heap.head fuel block = some page := by
  induction fuel generalizing block with
  | zero => omega
  | succ fuel induction =>
      by_cases isFirst : block = page
      · rw [isFirst, Heap.head, chained.prev_of_page (chained.isPage isBlock)]
      · obtain ⟨p, isPrev, isOwner, place, _⟩ := chained.prev_of_ne isBlock isFirst
        have ok := chained.block isOwner
        have large := ok.large
        have low := ok.low
        rw [Heap.head, isPrev]
        exact induction isOwner (by omega)

theorem tail_spec (isBlock : owner block = some page)
    (enough : page + pageSizeMax - block ≤ fuel) :
    ∃ t, heap.tail fuel block = some t ∧ owner t = some page ∧
      t + heap.size t = page + pageSizeMax := by
  induction fuel generalizing block with
  | zero =>
      have bound := (chained.block isBlock).lt_end
      omega
  | succ fuel induction =>
      have ok := chained.block isBlock
      by_cases isLast : block + heap.size block = page + pageSizeMax
      · refine ⟨block, ?_, isBlock, isLast⟩
        rw [Heap.tail, ok.next_of_eq isLast]
      · have large := ok.large
        rw [Heap.tail, ok.next_of_ne isLast]
        exact induction (ok.follow isLast).1 (by omega)

theorem pageSize_eq (isBlock : owner block = some page) :
    heap.pageSize block = some pageSizeMax := by
  have ok := chained.block isBlock
  have low := ok.low
  have high := ok.high
  have large := ok.large
  obtain ⟨t, isTail, isLast, place⟩ : ∃ t, heap.tail Heap.steps block = some t ∧
      owner t = some page ∧ t + heap.size t = page + pageSizeMax :=
    chained.tail_spec isBlock (by unfold Heap.steps; omega)
  have isHead : heap.head Heap.steps block = some page :=
    chained.head_eq isBlock (by unfold Heap.steps; omega)
  have tailLow := (chained.block isLast).low
  unfold Heap.pageSize
  simp only [isTail, isHead, Option.bind_eq_bind, Option.bind_some]
  exact congrArg some (by omega)

theorem assertPage_eq (isBlock : owner block = some page) : heap.assertPage block = some () :=
  if_pos (chained.pageSize_eq isBlock)

/-- The walk from a block has the blocks of its page from there on. -/
theorem mem_walk (isStart : owner start = some page)
    (enough : page + pageSizeMax - start ≤ fuel) :
    block ∈ heap.walk fuel start ↔ owner block = some page ∧ start ≤ block := by
  induction fuel generalizing start with
  | zero =>
      have bound := (chained.block isStart).lt_end
      omega
  | succ fuel induction =>
      have ok := chained.block isStart
      have large := ok.large
      rw [Heap.walk, List.mem_cons]
      by_cases isLast : start + heap.size start = page + pageSizeMax
      · rw [ok.next_of_eq isLast]
        refine ⟨?_, ?_⟩
        · rintro (rfl | isNone)
          · exact ⟨isStart, Nat.le_refl _⟩
          · cases isNone
        · rintro ⟨isBlock, above⟩
          rcases Nat.eq_or_lt_of_le above with same | more
          · exact .inl same.symm
          · have reach := chained.ahead isStart isBlock more
            have bound := (chained.block isBlock).lt_end
            omega
      · obtain ⟨isNext, _⟩ := ok.follow isLast
        rw [ok.next_of_ne isLast]
        dsimp only
        rw [induction isNext (by omega)]
        refine ⟨?_, ?_⟩
        · rintro (rfl | ⟨isBlock, above⟩)
          · exact ⟨isStart, Nat.le_refl _⟩
          · exact ⟨isBlock, by omega⟩
        · rintro ⟨isBlock, above⟩
          rcases Nat.eq_or_lt_of_le above with same | more
          · exact .inl same.symm
          · exact .inr ⟨isBlock, chained.ahead isStart isBlock more⟩

theorem mem_blocks (isPage : page ∈ heap.pages) :
    block ∈ heap.blocks page ↔ owner block = some page := by
  have isStart := (chained.start isPage).1
  unfold Heap.blocks
  rw [chained.mem_walk isStart (by unfold Heap.steps; omega)]
  exact and_iff_left_of_imp fun isBlock => (chained.block isBlock).low

theorem tiles_walk (isStart : owner start = some page)
    (enough : page + pageSizeMax - start ≤ fuel) :
    Extent.Tiles start ((heap.walk fuel start).map fun block => ⟨block, heap.size block⟩)
      (page + pageSizeMax) := by
  induction fuel generalizing start with
  | zero =>
      have bound := (chained.block isStart).lt_end
      omega
  | succ fuel induction =>
      have ok := chained.block isStart
      have large := ok.large
      rw [Heap.walk, List.map_cons]
      refine ⟨rfl, ?_⟩
      dsimp only
      by_cases isLast : start + heap.size start = page + pageSizeMax
      · rw [ok.next_of_eq isLast]
        exact isLast
      · rw [ok.next_of_ne isLast]
        exact induction (ok.follow isLast).1 (by omega)

/-- The blocks tile their page. -/
theorem tiles_blocks (isPage : page ∈ heap.pages) :
    Extent.Tiles page ((heap.blocks page).map fun block => ⟨block, heap.size block⟩)
      (page + pageSizeMax) :=
  chained.tiles_walk (chained.start isPage).1 (by unfold Heap.steps; omega)

end Chained

end MallocSurvey.FcMalloc.FcHeap
