import MallocSurvey.FcMalloc.HeapBins

/-! # Freeing a block -/

namespace MallocSurvey.FcMalloc.FcHeap

open Library

variable {heap heap' : Heap} {owner owner' : Nat → Option Nat} {lists : Nat → List Nat}
  {holes : List Nat} {page block n h : Nat}

/-- Apart from one block, the blocks that are in no bin stay, and none becomes used. -/
structure Frees (heap : Heap) (owner : Nat → Option Nat) (h : Nat) (heap' : Heap)
    (owner' : Nat → Option Nat) : Prop where
  spares : ∀ b page, owner b = some page → b ≠ h → (heap.header b).flags ≠ queued →
    owner' b = some page ∧ heap'.size b = heap.size b ∧
      (heap'.header b).flags = (heap.header b).flags
  gains : ∀ b page, owner' b = some page → (heap'.header b).flags = active →
    owner b = some page ∧ (heap.header b).flags = active
  pool32 : heap'.pool32 = heap.pool32
  pool64 : heap'.pool64 = heap.pool64
  pages : heap'.pages ⊆ heap.pages

namespace Frees

theorem refl (heap : Heap) (owner : Nat → Option Nat) (h : Nat) :
    Frees heap owner h heap owner :=
  ⟨fun _ _ isOwner _ _ => ⟨isOwner, rfl, rfl⟩, fun _ _ isOwner isActive => ⟨isOwner, isActive⟩,
    rfl, rfl, List.Subset.refl _⟩

theorem trans {middle : Heap} {between : Nat → Option Nat} {w : Nat}
    (first : Frees heap owner h middle between) (second : Frees middle between w heap' owner')
    (others : ∀ b page, owner b = some page → (heap.header b).flags ≠ queued → b ≠ h → b ≠ w) :
    Frees heap owner h heap' owner' where
  spares := by
    intro b page isB different notQueued
    obtain ⟨isMiddle, middleSize, middleFlags⟩ := first.spares b page isB different notQueued
    obtain ⟨isLast, lastSize, lastFlags⟩ := second.spares b page isMiddle
      (others b page isB notQueued different) (middleFlags ▸ notQueued)
    exact ⟨isLast, lastSize.trans middleSize, lastFlags.trans middleFlags⟩
  gains := by
    intro b page isB isActive
    obtain ⟨isMiddle, wasActive⟩ := second.gains b page isB isActive
    exact first.gains b page isMiddle wasActive
  pool32 := second.pool32.trans first.pool32
  pool64 := second.pool64.trans first.pool64
  pages := List.Subset.trans second.pages first.pages

end Frees

theorem Kept.mono {holes' : List Nat} (kept : Kept heap owner lists holes)
    (subset : ∀ b page, owner b = some page → b ∈ holes → b ∈ holes') :
    Kept heap owner lists holes' :=
  { kept with
    settled := fun isOwner notHole => kept.settled isOwner fun member =>
      notHole (subset _ _ isOwner member) }

/-- The test for a free neighbour. -/
theorem Kept.isFree_iff (kept : Kept heap owner lists holes) (isBlock : owner block = some page) :
    (heap.isActive block = false ∧ heap.isQueued block = true) ↔
      (heap.header block).flags = queued := by
  unfold Heap.isActive Heap.isQueued
  rcases kept.isState isBlock with isQueued | isActive | isClear
  · rw [isQueued]
    decide
  · rw [isActive]
    decide
  · rw [isClear]
    decide

/-- A block takes the next one, and neither of them is in a bin. -/
theorem Kept.merged (kept : Kept heap owner lists (n :: h :: holes))
    (isBlock : owner h = some page) (isNext : heap.next h = some n)
    (hUsed : (heap.header h).flags ≠ queued) (nUsed : (heap.header n).flags ≠ queued)
    (joined : Joined heap heap' h n)
    (sameFlags : ∀ a, (heap'.header a).flags = (heap.header a).flags)
    (aside : Aside heap heap') : Kept heap' (Function.update owner n none) lists (h :: holes) := by
  have ok := kept.chained.block isBlock
  obtain ⟨place, isOwner, _⟩ := ok.of_next isNext
  refine ⟨kept.chained.join isBlock isOwner joined, ⟨?_, ?_⟩, ?_, ?_, ?_⟩
  · rw [aside.bins, aside.node]
    exact kept.binned.segregated
  · intro bin b
    rw [kept.binned.listed, sameFlags]
    by_cases isHere : b = n
    · exact iff_unmarked fun isQueued => nUsed (isHere ▸ isQueued)
    by_cases isFront : b = h
    · exact iff_unmarked fun isQueued => hUsed (isFront ▸ isQueued)
    · rw [Function.update_of_ne isHere, joined.size_of isFront isHere]
  · intro b other isB
    rw [sameFlags]
    exact kept.isState (of_erased isB).2
  · intro b other isB notHole
    obtain ⟨notNext, isOld⟩ := of_erased isB
    rw [List.mem_cons, not_or] at notHole
    rw [sameFlags, joined.size_of notHole.1 notNext]
    refine kept.settled isOld ?_
    rw [List.mem_cons, List.mem_cons, not_or, not_or]
    exact ⟨notNext, notHole.1, notHole.2⟩
  · intro b other m isB isAfter
    obtain ⟨notNext, isOld⟩ := of_erased isB
    rw [sameFlags, sameFlags]
    by_cases isFront : b = h
    · exact fun both => hUsed (isFront ▸ both.1)
    · rw [next_congr (joined.sizes b isFront notNext)] at isAfter
      exact kept.coalesced isOld isAfter

theorem prev_congr (same : (heap'.header h).prevSize = (heap.header h).prevSize) :
    heap'.prev h = heap.prev h := by
  unfold Heap.prev
  rw [same]

/-- A free block leaves its bin and is merged with its neighbour, which is in no bin. -/
theorem Kept.joined_free {front back x : Nat} (kept : Kept heap owner lists (h :: holes))
    (isFront : owner front = some page) (isNext : heap.next front = some back)
    (pair : x = back ∧ h = front ∨ x = front ∧ h = back)
    (isFree : (heap.header x).flags = queued) (hUsed : (heap.header h).flags ≠ queued) :
    ∃ heap' lists', (heap.unqueue x).mergeNext front = some heap' ∧
      Kept heap' (Function.update owner back none) lists' (front :: holes) ∧
      (∀ a, (heap'.header a).flags = if a = x then 0#8 else (heap.header a).flags) ∧
      heap'.prev front = heap.prev front ∧
      (∀ m, heap'.next front = some m → heap.next back = some m ∧ m ≠ x) ∧
      Frees heap owner h heap' (Function.update owner back none) := by
  have ok := kept.chained.block isFront
  obtain ⟨place, isBack, _⟩ := ok.of_next isNext
  have backOk := kept.chained.block isBack
  have large := ok.large
  have backLarge := backOk.large
  have isX : owner x = some page := by
    rcases pair with ⟨rfl, _⟩ | ⟨rfl, _⟩ <;> assumption
  obtain ⟨⟨lists', unqueued⟩, resting, flags⟩ := unqueue_spec kept isX isFree
  have stillNext : (heap.unqueue x).next front = some back :=
    (next_congr (resting.size front)).trans isNext
  obtain ⟨heap', isMerge, joined, sameFlags, aside⟩ :=
    mergeNext_spec unqueued.chained isFront stillNext
  have reordered : Kept (heap.unqueue x) owner lists' (back :: front :: holes) := by
    refine unqueued.mono fun b _ _ member => ?_
    simp only [List.mem_cons] at member ⊢
    rcases pair with ⟨rfl, rfl⟩ | ⟨rfl, rfl⟩ <;> tauto
  have notQueued : ∀ a, a = x ∨ a = h → ((heap.unqueue x).header a).flags ≠ queued := by
    rintro a isEither
    rw [flags]
    split
    · decide
    · next notX => exact isEither.resolve_left notX ▸ hUsed
  have merged := reordered.merged isFront stillNext
    (notQueued front (pair.elim (fun is => .inr is.2.symm) fun is => .inl is.1.symm))
    (notQueued back (pair.elim (fun is => .inl is.1.symm) fun is => .inr is.2.symm))
    joined sameFlags aside
  have wholeFlags : ∀ a, (heap'.header a).flags = if a = x then 0#8 else (heap.header a).flags :=
    fun a => (sameFlags a).trans (flags a)
  refine ⟨heap', lists', isMerge, merged, wholeFlags, ?_, ?_, ?_, ?_,
    aside.pool32.trans resting.pool32, aside.pool64.trans resting.pool64,
    fun _ isPage => joined.pages.trans resting.pages ▸ isPage⟩
  · refine (prev_congr (joined.prevs front (.inr ?_))).trans (prev_congr (resting.prevSize front))
    rw [size_congr (resting.size back)]
    omega
  · intro m isAfter
    have stays : Function.update owner back none front = some page := by
      rw [Function.update_of_ne (by omega), isFront]
    obtain ⟨endPlace, isM, _⟩ := (merged.chained.block stays).of_next isAfter
    have wholeSize := joined.size_whole
    rw [size_congr (resting.size front), size_congr (resting.size back)] at wholeSize
    rw [Function.update_of_ne (by omega)] at isM
    have bound := (kept.chained.block isM).large
    have high := (kept.chained.block isM).high
    rw [backOk.next_of_ne (by omega)]
    exact ⟨congrArg some (by omega), by omega⟩
  · intro b other isB notH notQueued
    have notX : b ≠ x := fun same => notQueued (same ▸ isFree)
    have notBoth : b ≠ front ∧ b ≠ back := by
      rcases pair with ⟨rfl, rfl⟩ | ⟨rfl, rfl⟩
      · exact ⟨notH, notX⟩
      · exact ⟨notX, notH⟩
    rw [Function.update_of_ne notBoth.2, joined.size_of notBoth.1 notBoth.2,
      size_congr (resting.size b), wholeFlags, if_neg notX]
    exact ⟨isB, rfl, rfl⟩
  · intro b other isB isActive
    rw [wholeFlags] at isActive
    split at isActive
    · exact absurd isActive (by decide)
    · exact ⟨(of_erased isB).2, isActive⟩

theorem takeNext_spec (kept : Kept heap owner lists (h :: holes)) (isBlock : owner h = some page)
    (hUsed : (heap.header h).flags ≠ queued) :
    ∃ heap' owner' lists', heap.takeNext h (heap.next h) = some heap' ∧
      Kept heap' owner' lists' (h :: holes) ∧ owner' h = some page ∧
      (∀ n, heap'.next h = some n → (heap'.header n).flags ≠ queued) ∧
      heap'.prev h = heap.prev h ∧ (heap'.header h).flags = (heap.header h).flags ∧
      Frees heap owner h heap' owner' := by
  cases isNext : heap.next h with
  | none =>
      refine ⟨heap, owner, lists, rfl, kept, isBlock, fun n isN => ?_, rfl, rfl, .refl ..⟩
      rw [isNext] at isN
      cases isN
  | some n =>
      have ok := kept.chained.block isBlock
      obtain ⟨place, isOwner, _⟩ := ok.of_next isNext
      have large := ok.large
      have different : h ≠ n := by omega
      unfold Heap.takeNext
      dsimp only
      by_cases isFree : (heap.header n).flags = queued
      · rw [if_pos ((kept.isFree_iff isOwner).mpr isFree)]
        obtain ⟨heap', lists', isMerge, merged, flags, samePrev, behind, frees⟩ :=
          kept.joined_free isBlock isNext (.inl ⟨rfl, rfl⟩) isFree hUsed
        refine ⟨heap', _, lists', isMerge, merged, ?_, ?_, samePrev, ?_, frees⟩
        · rw [Function.update_of_ne different, isBlock]
        · intro m isAfter
          -- what is behind a free block is not free
          obtain ⟨isBehind, notNext⟩ := behind m isAfter
          rw [flags, if_neg notNext]
          exact fun isQueued => kept.coalesced isOwner isBehind ⟨isFree, isQueued⟩
        · rw [flags, if_neg different]
      · rw [if_neg fun isTest => isFree ((kept.isFree_iff isOwner).mp isTest)]
        refine ⟨heap, owner, lists, rfl, kept, isBlock, fun m isM => ?_, rfl, rfl, .refl ..⟩
        rw [isNext] at isM
        cases isM
        exact isFree

/-- What is known of the block that is put into a bin. -/
structure Whole (heap : Heap) (owner : Nat → Option Nat) (page block : Nat) : Prop where
  isBlock : owner block = some page
  isFree : (heap.header block).flags = active ∨ (heap.header block).flags = 0#8
  nextUsed : ∀ n, heap.next block = some n → (heap.header n).flags ≠ queued
  prevUsed : ∀ p, heap.prev block = some p → (heap.header p).flags ≠ queued

theorem takePrev_spec (kept : Kept heap owner lists (h :: holes)) (isBlock : owner h = some page)
    (isActive : (heap.header h).flags = active)
    (nextUsed : ∀ n, heap.next h = some n → (heap.header n).flags ≠ queued) :
    ∃ w heap' owner' lists', heap.takePrev h (heap.prev h) = some (w, heap') ∧
      Kept heap' owner' lists' (w :: holes) ∧ Whole heap' owner' page w ∧
      (∀ b other, owner b = some other → (heap.header b).flags ≠ queued → b ≠ h → b ≠ w) ∧
      (∀ other, owner' h = some other → w = h) ∧ Frees heap owner h heap' owner' := by
  cases isPrev : heap.prev h with
  | none =>
      refine ⟨h, heap, owner, lists, rfl, kept, ⟨isBlock, .inl isActive, nextUsed, fun p isP => ?_⟩,
        fun _ _ _ _ notH => notH, fun _ _ => rfl, .refl ..⟩
      rw [isPrev] at isP
      cases isP
  | some p =>
      obtain ⟨isOwner, place, isNext⟩ := kept.chained.of_prev isBlock isPrev
      have large := (kept.chained.block isOwner).large
      unfold Heap.takePrev
      dsimp only
      by_cases isFree : (heap.header p).flags = queued
      · rw [if_pos ((kept.isFree_iff isOwner).mpr isFree)]
        obtain ⟨heap', lists', isMerge, merged, flags, samePrev, behind, frees⟩ :=
          kept.joined_free isOwner isNext (.inr ⟨rfl, rfl⟩) isFree (by rw [isActive]; decide)
        refine ⟨p, heap', _, lists', by rw [isMerge]; rfl, merged, ⟨?_, ?_, ?_, ?_⟩, ?_, ?_, frees⟩
        · rw [Function.update_of_ne (by omega), isOwner]
        · rw [flags, if_pos rfl]
          exact .inr rfl
        · intro m isAfter
          obtain ⟨isBehind, notPrev⟩ := behind m isAfter
          rw [flags, if_neg notPrev]
          exact nextUsed m isBehind
        · intro q isQ
          rw [samePrev] at isQ
          obtain ⟨qOwner, qPlace, qNext⟩ := kept.chained.of_prev isOwner isQ
          have qLarge := (kept.chained.block qOwner).large
          rw [flags, if_neg (by omega)]
          exact fun isQueued => kept.coalesced qOwner qNext ⟨isQueued, isFree⟩
        · exact fun b other _ notQueued _ same => notQueued (same ▸ isFree)
        · exact fun other isH => absurd rfl (of_erased isH).1
      · rw [if_neg fun isTest => isFree ((kept.isFree_iff isOwner).mp isTest)]
        refine ⟨h, heap, owner, lists, rfl, kept,
          ⟨isBlock, .inl isActive, nextUsed, fun q isQ => ?_⟩,
          fun _ _ _ _ notH => notH, fun _ _ => rfl, .refl ..⟩
        rw [isPrev] at isQ
        cases isQ
        exact isFree

/-! ## A page is given back -/

/-- A block that is as large as a page is the page. -/
theorem Chained.whole_page (chained : Chained heap owner) (isBlock : owner block = some page)
    (isWhole : heap.size block = pageSizeMax) :
    block = page ∧ ∀ b, owner b = some page → b = block := by
  have ok := chained.block isBlock
  have low := ok.low
  have high := ok.high
  refine ⟨by omega, ?_⟩
  intro b isB
  have other := chained.block isB
  have otherLow := other.low
  have otherHigh := other.high
  have otherLarge := other.large
  by_contra different
  have reach := chained.ahead isBlock isB (by omega)
  omega

theorem Kept.deleted (kept : Kept heap owner lists (block :: holes))
    (isBlock : owner block = some page) (notQueued : (heap.header block).flags ≠ queued)
    (isWhole : heap.size block = pageSizeMax) :
    Kept { heap with pages := heap.pages.erase block } (Function.update owner block none) lists
      holes := by
  obtain ⟨isPage, alone⟩ := kept.chained.whole_page isBlock isWhole
  subst isPage
  have nodup := kept.chained.page_nodup
  have start := kept.chained.start (kept.chained.isPage isBlock)
  refine ⟨⟨?_, ?_, ?_, ?_, ?_, ?_⟩, ⟨kept.binned.segregated, ?_⟩, ?_, ?_, ?_⟩
  · intro b other isB
    have ok := kept.chained.block (of_erased isB).2
    have large := ok.large
    refine ok.keep rfl fun place _ isNext back => ⟨?_, rfl⟩
    rw [Function.update_of_ne ?_, isNext]
    rintro rfl
    rw [start.2] at back
    omega
  · intro b other isB
    obtain ⟨notBlock, isOld⟩ := of_erased isB
    refine (List.mem_erase_of_ne ?_).mpr (kept.chained.isPage isOld)
    rintro rfl
    exact notBlock (alone b isOld)
  · intro other isPage
    obtain ⟨different, isOld⟩ := nodup.mem_erase_iff.mp isPage
    obtain ⟨isStart, isFirst⟩ := kept.chained.start isOld
    exact ⟨(Function.update_of_ne different ..).trans isStart, isFirst⟩
  · intro a b first second isA isB before
    exact kept.chained.ahead (of_erased isA).2 (of_erased isB).2 before
  · exact kept.chained.pagesApart.sublist List.erase_sublist
  · exact fun member => kept.chained.nonzero (List.mem_of_mem_erase member)
  · intro bin b
    rw [kept.binned.listed]
    by_cases isHere : b = block
    · exact iff_unmarked fun isQueued => notQueued (isHere ▸ isQueued)
    · rw [Function.update_of_ne isHere]
      rfl
  · exact fun isB => kept.isState (of_erased isB).2
  · intro b other isB notHole
    obtain ⟨notBlock, isOld⟩ := of_erased isB
    exact kept.settled isOld fun member => (List.mem_cons.mp member).elim notBlock notHole
  · exact fun isB isNext => kept.coalesced (of_erased isB).2 isNext

theorem keepOrDelete_of_ne (notWhole : heap.size block ≠ pageSizeMax) :
    heap.keepOrDelete block = (idled heap block).push (log2 (heap.size block)) block := by
  have sameSize : (idled heap block).size block = heap.size block :=
    size_congr ((resting_idled heap block).size block)
  rw [← sameSize]
  exact if_neg notWhole

theorem keepOrDelete_spec (kept : Kept heap owner lists (block :: holes))
    (whole : Whole heap owner page block) :
    ∃ owner' lists', Kept (heap.keepOrDelete block) owner' lists' holes ∧
      (∀ other, owner' block = some other →
        ((heap.keepOrDelete block).header block).flags ≠ active) ∧
      Frees heap owner block (heap.keepOrDelete block) owner' := by
  by_cases isWhole : heap.size block = pageSizeMax
  · have isDeleted : heap.keepOrDelete block = { heap with pages := heap.pages.erase block } :=
      if_pos isWhole
    rw [isDeleted]
    refine ⟨_, _, kept.deleted whole.isBlock (ne_queued whole.isFree) isWhole, ?_, ?_, ?_,
      rfl, rfl, List.erase_subset⟩
    · exact fun other isHere => absurd rfl (of_erased isHere).1
    · intro b other isB different _
      exact ⟨(Function.update_of_ne different ..).trans isB, rfl, rfl⟩
    · exact fun b other isB isUsed => ⟨(of_erased isB).2, isUsed⟩
  · have bound := (kept.chained.block whole.isBlock).size_le
    obtain ⟨⟨lists', isKept⟩, resting, flags⟩ := push_spec kept whole.isBlock (by omega)
      whole.isFree whole.nextUsed whole.prevUsed
    rw [keepOrDelete_of_ne isWhole]
    refine ⟨owner, lists', isKept, ?_, ?_, ?_, resting.pool32, resting.pool64,
      fun _ isPage => resting.pages ▸ isPage⟩
    · intro other _
      rw [flags, if_pos rfl]
      decide
    · intro b other isB different _
      exact ⟨isB, size_congr (resting.size b), by rw [flags, if_neg different]⟩
    · intro b other isB isUsed
      rw [flags] at isUsed
      split at isUsed
      · exact absurd isUsed (by decide)
      · exact ⟨isB, isUsed⟩

/-- A block that is in use is freed. -/
theorem free_spec (kept : Kept heap owner lists holes) (isBlock : owner h = some page)
    (isActive : (heap.header h).flags = active) (notHole : h ∉ holes) :
    ∃ heap' owner' lists', heap.free h = some heap' ∧ Kept heap' owner' lists' holes ∧
      (∀ other, owner' h = some other → (heap'.header h).flags ≠ active) ∧
      Frees heap owner h heap' owner' := by
  have hUsed : (heap.header h).flags ≠ queued := by
    rw [isActive]
    decide
  have wider : Kept heap owner lists (h :: holes) :=
    kept.mono fun _ _ _ member => List.mem_cons_of_mem _ member
  obtain ⟨joined, owner1, lists1, isJoin, joinedKept, joinedOwner, nextUsed, samePrev, sameFlags,
    joinFrees⟩ := takeNext_spec wider isBlock hUsed
  obtain ⟨w, merged, owner2, lists2, isMerge, mergedKept, whole, notW, isHere, mergeFrees⟩ :=
    takePrev_spec joinedKept joinedOwner (sameFlags.trans isActive) nextUsed
  obtain ⟨owner3, lists3, isKept, notUsed, lastFrees⟩ := keepOrDelete_spec mergedKept whole
  refine ⟨merged.keepOrDelete w, owner3, lists3, ?_, isKept, ?_,
    joinFrees.trans (mergeFrees.trans lastFrees notW) fun _ _ _ _ notH => notH⟩
  · have ok := kept.chained.block isBlock
    have isTest : heap.isActive h = true := by
      unfold Heap.isActive
      rw [isActive]
      decide
    unfold Heap.free
    rw [samePrev] at isMerge
    simp only [assert_of (kept.chained.ne_zero isBlock), assert_of isTest,
      assert_of ok.size_ne_zero, assert_of (kept.settled isBlock notHole).1, isJoin, isMerge,
      Option.bind_eq_bind, Option.bind_some]
    rfl
  · intro other isH isUsed
    have same := isHere other (lastFrees.gains h other isH isUsed).1
    exact notUsed other (same ▸ isH) (same ▸ isUsed)

end MallocSurvey.FcMalloc.FcHeap
