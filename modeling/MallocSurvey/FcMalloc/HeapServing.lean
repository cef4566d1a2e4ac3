import MallocSurvey.FcMalloc.HeapFreeing

/-! # Handing a block out -/

namespace MallocSurvey.FcMalloc.FcHeap

open Library

variable {heap heap' : Heap} {owner owner' : Nat → Option Nat} {lists lists' : Nat → List Nat}
  {holes : List Nat} {page block n h sz s bin answer : Nat}

/-- The end of a block becomes a block of its own, and neither of them is in a bin. -/
theorem Kept.cut (kept : Kept heap owner lists (block :: holes))
    (isBlock : owner block = some page) (isClear : (heap.header block).flags = 0#8)
    (large : 32 ≤ sz) (multiple : sz % 32 = 0) (fits : sz + 32 ≤ heap.size block)
    (cut : Cut heap heap' block sz n)
    (flags : ∀ a, (heap'.header a).flags = if a = n then 0#8 else (heap.header a).flags)
    (aside : Aside heap heap') :
    Kept heap' (Function.update owner n (some page)) lists (block :: n :: holes) := by
  have place := cut.place
  have isNew : owner n = none := kept.chained.not_block isBlock (by omega) (by omega)
  have ofBlock : ∀ {b other}, Function.update owner n (some page) b = some other → b ≠ n →
      owner b = some other := by
    intro b other isB notNew
    rwa [Function.update_of_ne notNew] at isB
  have blockFlags : (heap'.header block).flags = 0#8 := by
    rw [flags, if_neg (by omega), isClear]
  refine ⟨kept.chained.cut isBlock large multiple fits cut, ⟨?_, ?_⟩, ?_, ?_, ?_⟩
  · rw [aside.bins, aside.node]
    exact kept.binned.segregated
  · intro bin b
    rw [kept.binned.listed, flags]
    by_cases isBack : b = n
    · rw [if_pos isBack, isBack, isNew]
      refine iff_of_false ?_ ?_
      · rintro ⟨⟨_, isSome⟩, _⟩
        cases isSome
      · rintro ⟨_, isQueued, _⟩
        exact absurd isQueued (by decide)
    rw [if_neg isBack, Function.update_of_ne isBack]
    by_cases isFront : b = block
    · rw [isFront, isClear]
      exact iff_unmarked (by decide)
    · rw [cut.size_of isFront isBack]
  · intro b other isB
    rw [flags]
    split
    · exact .inr (.inr rfl)
    · next notNew => exact kept.isState (ofBlock isB notNew)
  · intro b other isB notHole
    rw [List.mem_cons, List.mem_cons, not_or, not_or] at notHole
    rw [flags, if_neg notHole.2.1, cut.size_of notHole.1 notHole.2.1]
    refine kept.settled (ofBlock isB notHole.2.1) ?_
    rw [List.mem_cons, not_or]
    exact ⟨notHole.1, notHole.2.2⟩
  · intro b other m isB isNext
    by_cases isBack : b = n
    · rw [isBack, flags, if_pos rfl]
      exact fun both => absurd both.1 (by decide)
    by_cases isFront : b = block
    · rw [isFront, blockFlags]
      exact fun both => absurd both.1 (by decide)
    · rw [next_congr (cut.sizes b isFront isBack)] at isNext
      rw [flags, flags, if_neg isBack]
      split
      · exact fun both => absurd both.2 (by decide)
      · exact kept.coalesced (ofBlock isB isBack) isNext

theorem size_setActive {on : Bool} : (heap.setActive block on).size h = heap.size h :=
  size_congr size_setFlags

/-- A block is marked as used. -/
theorem Kept.activated (kept : Kept heap owner lists (block :: holes))
    (isClear : (heap.header block).flags = 0#8) (small : heap.size block < pageSizeMax) :
    Kept (heap.setActive block true) owner lists holes ∧
      ∀ a, ((heap.setActive block true).header a).flags =
        if a = block then active else (heap.header a).flags := by
  have flags : ∀ a, ((heap.setActive block true).header a).flags =
      if a = block then active else (heap.header a).flags := by
    intro a
    unfold Heap.setActive
    rw [flags_setFlags, isClear]
    rfl
  have resting : Resting heap (heap.setActive block true) := resting_setFlags heap block _
  refine ⟨kept.reflagged resting flags (.inr (.inl rfl)) ⟨kept.binned.segregated, ?_⟩
    (fun _ => ⟨small, by decide⟩)
    (fun b different notHole member => (List.mem_cons.mp member).elim different notHole)
    (fun isQueued => absurd isQueued (by decide)), flags⟩
  intro bin b
  rw [kept.binned.listed, flags, size_congr (resting.size b)]
  split
  · next isHere =>
      rw [isHere, isClear]
      exact iff_of_false (fun inBin => absurd inBin.2.1 (by decide))
        (fun inBin => absurd inBin.2.1 (by decide))
  · exact Iff.rfl

/-- What handing out a block does. -/
structure Served (heap : Heap) (owner : Nat → Option Nat) (answer s h : Nat) (heap' : Heap)
    (owner' : Nat → Option Nat) (lists' : Nat → List Nat) : Prop where
  kept : Kept heap' owner' lists' []
  isBlock : ∃ page, owner' h = some page
  isActive : (heap'.header h).flags = active
  large : s ≤ heap'.size h
  fresh : ∀ page, owner h = some page → (heap.header h).flags ≠ active
  spares : ∀ b page, owner b = some page → (heap.header b).flags = active →
    owner' b = some page ∧ heap'.size b = heap.size b ∧ (heap'.header b).flags = active
  gains : ∀ b page, owner' b = some page → (heap'.header b).flags = active → b ≠ h →
    owner b = some page ∧ (heap.header b).flags = active
  pool32 : heap'.pool32 = heap.pool32
  pool64 : heap'.pool64 = heap.pool64
  pages : ∀ page ∈ heap'.pages, page = answer ∨ page ∈ heap.pages

/-- What is done before a block is handed out leaves the blocks in use. -/
theorem Served.widen {middle : Heap} {owner'' : Nat → Option Nat}
    (served : Served middle owner'' answer s h heap' owner' lists')
    (spares : ∀ b page, owner b = some page → (heap.header b).flags = active →
      owner'' b = some page ∧ middle.size b = heap.size b ∧ (middle.header b).flags = active)
    (gains : ∀ b page, owner'' b = some page → (middle.header b).flags = active →
      owner b = some page ∧ (heap.header b).flags = active)
    (same32 : middle.pool32 = heap.pool32) (same64 : middle.pool64 = heap.pool64)
    (pages : ∀ page ∈ middle.pages, page = answer ∨ page ∈ heap.pages) :
    Served heap owner answer s h heap' owner' lists' where
  kept := served.kept
  isBlock := served.isBlock
  isActive := served.isActive
  large := served.large
  fresh := by
    intro page isOwner isActive
    obtain ⟨isMiddle, _, stillActive⟩ := spares h page isOwner isActive
    exact served.fresh page isMiddle stillActive
  spares := by
    intro b page isB isActive
    obtain ⟨isMiddle, middleSize, stillActive⟩ := spares b page isB isActive
    obtain ⟨bOwner, bSize, bFlags⟩ := served.spares b page isMiddle stillActive
    exact ⟨bOwner, bSize.trans middleSize, bFlags⟩
  gains := by
    intro b page isB isUsed different
    obtain ⟨isMiddle, wasUsed⟩ := served.gains b page isB isUsed different
    exact gains b page isMiddle wasUsed
  pool32 := served.pool32.trans same32
  pool64 := served.pool64.trans same64
  pages := fun page isPage => (served.pages page isPage).elim .inl (pages page)

/-- The size of a block, as `fc_heap::alloc` is called with it. -/
def IsPower (s : Nat) : Prop := ∃ k, 5 ≤ k ∧ k ≤ 20 ∧ s = 2 ^ k

namespace IsPower

variable (isPower : IsPower s)

include isPower

theorem facts : 32 ≤ s ∧ s ≤ 2 ^ 20 ∧ s % 32 = 0 ∧ s &&& (s - 1) = 0 := by
  obtain ⟨k, low, high, rfl⟩ := isPower
  have all : ∀ k < 21, 5 ≤ k →
      32 ≤ 2 ^ k ∧ 2 ^ k ≤ 2 ^ 20 ∧ 2 ^ k % 32 = 0 ∧ 2 ^ k &&& (2 ^ k - 1) = 0 := by decide
  exact all k (by omega) low

theorem large : 32 ≤ s := isPower.facts.1

theorem small : s ≤ 2 ^ 20 := isPower.facts.2.1

theorem multiple : s % 32 = 0 := isPower.facts.2.2.1

theorem power : s &&& (s - 1) = 0 := isPower.facts.2.2.2

/-- A block of a bin is large enough for the sizes up to that of the bin. -/
theorem le_of_log2 {size : Nat} (nonzero : size ≠ 0) (enough : log2 s ≤ log2 size) :
    s ≤ size := by
  obtain ⟨k, _, _, rfl⟩ := isPower
  unfold log2 at enough
  rw [Nat.log2_two_pow] at enough
  exact (Nat.pow_le_pow_right (by decide) enough).trans (Nat.log2_self_le nonzero)

end IsPower

theorem carve_spec (answer : Nat) (kept : Kept heap owner lists [block])
    (isBlock : owner block = some page)
    (isClear : (heap.header block).flags = 0#8) (isPower : IsPower s)
    (fits : s + 32 ≤ heap.size block) :
    ∃ tail heap' owner' lists', heap.carve block s = some (tail, heap') ∧
      Served heap owner answer s tail heap' owner' lists' := by
  have ok := kept.chained.block isBlock
  have bound := ok.size_le
  have large := isPower.large
  have small := isPower.small
  obtain ⟨n, place⟩ : ∃ n, n = block + (heap.size block - s) := ⟨_, rfl⟩
  have notBlock : block ≠ n := by omega
  have isNew : owner n = none := kept.chained.not_block isBlock (by omega) (by omega)
  have same32 : s % 2 ^ 32 = s := Nat.mod_eq_of_lt (by omega)
  obtain ⟨cutHeap, isSplit, cut, flags, aside⟩ :=
    split_spec kept.chained isBlock large isPower.multiple isPower.power fits place
  have cutKept := kept.cut isBlock isClear large isPower.multiple fits cut flags aside
  have front := cut.size_front
  have blockClear : (cutHeap.header block).flags = 0#8 := by
    rw [flags, if_neg notBlock, isClear]
  obtain ⟨activeKept, activeFlags⟩ := cutKept.activated blockClear (by omega)
  have stays : Function.update owner n (some page) block = some page := by
    rw [Function.update_of_ne notBlock, isBlock]
  have isOwner : Function.update owner n (some page) n = some page := Function.update_self ..
  obtain ⟨freed, owner', lists', isFree, freedKept, notActive, frees⟩ :=
    free_spec activeKept stays (by rw [activeFlags, if_pos rfl])
      (fun member => notBlock (List.mem_singleton.mp member))
  have tailClear : ((cutHeap.setActive block true).header n).flags = 0#8 := by
    rw [activeFlags, if_neg (Ne.symm notBlock), flags, if_pos rfl]
  obtain ⟨tailOwner, tailSize, tailFlags⟩ := frees.spares n page isOwner (Ne.symm notBlock)
    (by rw [tailClear]; decide)
  have tailSize' : freed.size n = s := tailSize.trans (size_setActive.trans cut.size_back)
  obtain ⟨lastKept, lastFlags⟩ := freedKept.activated (tailFlags.trans tailClear)
    (by unfold pageSizeMax; omega)
  refine ⟨n, freed.setActive n true, owner', lists', ?_, lastKept, ⟨page, tailOwner⟩, ?_, ?_, ?_,
    ?_, ?_, frees.pool32.trans aside.pool32, frees.pool64.trans aside.pool64, ?_⟩
  · have cutNe : (cutHeap.header block).size ≠ 0 := by
      rw [cut.front]
      omega
    unfold Heap.carve
    rw [same32]
    simp only [isSplit, assert_of cutNe, isFree, Option.bind_eq_bind, Option.bind_some]
    rfl
  · rw [lastFlags, if_pos rfl]
  · rw [size_setActive, tailSize']
  · intro other isOther
    rw [isNew] at isOther
    cases isOther
  · intro b other isB isActive
    have notNew : b ≠ n := by
      rintro rfl
      rw [isNew] at isB
      cases isB
    have notCut : b ≠ block := by
      rintro rfl
      rw [isClear] at isActive
      exact absurd isActive (by decide)
    have stillActive : ((cutHeap.setActive block true).header b).flags = active := by
      rw [activeFlags, if_neg notCut, flags, if_neg notNew, isActive]
    obtain ⟨bOwner, bSize, bFlags⟩ := frees.spares b other
      ((Function.update_of_ne notNew ..).trans isB) notCut (by rw [stillActive]; decide)
    refine ⟨bOwner, ?_, ?_⟩
    · exact size_setActive.trans (bSize.trans
        (size_setActive.trans (cut.size_of notCut notNew)))
    · rw [lastFlags, if_neg notNew, bFlags, stillActive]
  · intro b other isB isUsed notNew
    rw [lastFlags, if_neg notNew] at isUsed
    obtain ⟨isCut, wasUsed⟩ := frees.gains b other isB isUsed
    have notCut : b ≠ block := by
      rintro rfl
      exact notActive other isB isUsed
    rw [Function.update_of_ne notNew] at isCut
    rw [activeFlags, if_neg notCut, flags, if_neg notNew] at wasUsed
    exact ⟨isCut, wasUsed⟩
  · intro other isPage
    exact .inr (cut.pages ▸ frees.pages isPage)

theorem serve_spec (answer : Nat) (kept : Kept heap owner lists [])
    (nonempty : heap.bins bin ≠ 0) (isPower : IsPower s) (enough : log2 s ≤ bin) :
    ∃ h heap' owner' lists', (heap.pop bin).2.serve (heap.pop bin).1 s = some (h, heap') ∧
      Served heap owner answer s h heap' owner' lists' := by
  obtain ⟨isHead, isListed, unlinked⟩ := pop_spec kept.binned nonempty
  obtain ⟨takenKept, resting, flags⟩ := kept.unlinked isListed unlinked
  obtain ⟨⟨page, isBlock⟩, isQueued, isBin⟩ := kept.binned.listed.mp isListed
  rw [isHead]
  generalize heap.bins bin = h at *
  obtain ⟨taken, isTaken⟩ : ∃ taken, taken = (heap.pop bin).2.setQueued h false := ⟨_, rfl⟩
  rw [← isTaken] at takenKept resting flags
  have ok := kept.chained.block isBlock
  have bound := ok.size_le
  have blockLarge := ok.large
  have large := isPower.large
  have takenSize : taken.size h = heap.size h := size_congr (resting.size h)
  have fits : s ≤ heap.size h := isPower.le_of_log2 (by omega) (isBin ▸ enough)
  have isClear : (taken.header h).flags = 0#8 := by
    rw [flags, if_pos rfl]
  have notActive : ∀ other, owner h = some other → (heap.header h).flags ≠ active := by
    intro _ _
    rw [isQueued]
    decide
  have isTest : (heap.pop bin).2.isQueued h = true := by
    unfold Heap.isQueued
    rw [unlinked.header, isQueued]
    decide
  have sizeNe : ((heap.pop bin).2.header h).size ≠ 0 := by
    rw [unlinked.header]
    exact ok.size_ne_zero
  have sizeNeBad : ((heap.pop bin).2.header h).size ≠ 0xbad := by
    rw [unlinked.header]
    exact ok.size_ne_bad
  have word : (taken.size h + 2 ^ 32 - 32) % 2 ^ 32 = heap.size h - 32 := by
    unfold pageSizeMax at bound
    omega
  have others : ∀ b other, owner b = some other → (heap.header b).flags = active → b ≠ h := by
    rintro b other isB isActive rfl
    exact notActive other isB isActive
  unfold Heap.serve
  simp only [assert_of sizeNe, assert_of sizeNeBad, assert_of isTest, ← isTaken, word,
    Option.bind_eq_bind, Option.bind_some]
  by_cases isSmall : heap.size h - 32 < s
  · rw [if_pos isSmall]
    have settled := (kept.settled isBlock List.not_mem_nil).1
    obtain ⟨lastKept, lastFlags⟩ := takenKept.activated isClear (by omega)
    refine ⟨h, _, owner, _, rfl, lastKept, ⟨page, isBlock⟩, ?_, ?_, notActive, ?_, ?_, ?_, ?_, ?_⟩
    · rw [lastFlags, if_pos rfl]
    · rw [size_setActive, takenSize]
      exact fits
    · intro b other isB isActive
      have different := others b other isB isActive
      refine ⟨isB, size_setActive.trans (size_congr (resting.size b)), ?_⟩
      rw [lastFlags, if_neg different, flags, if_neg different, isActive]
    · intro b other isB isUsed different
      rw [lastFlags, if_neg different, flags, if_neg different] at isUsed
      exact ⟨isB, isUsed⟩
    · exact resting.pool32
    · exact resting.pool64
    · exact fun other isPage => .inr (resting.pages ▸ isPage)
  · rw [if_neg isSmall]
    obtain ⟨tail, heap', owner', lists', isCarve, served⟩ := carve_spec answer takenKept isBlock
      isClear isPower (by omega)
    refine ⟨tail, heap', owner', lists', isCarve, served.widen ?_ ?_ resting.pool32
      resting.pool64 fun other isPage => .inr (resting.pages ▸ isPage)⟩
    · intro b other isB isActive
      rw [flags, if_neg (others b other isB isActive)]
      exact ⟨isB, size_congr (resting.size b), isActive⟩
    · intro b other isB isUsed
      rw [flags] at isUsed
      split at isUsed
      · exact absurd isUsed (by decide)
      · exact ⟨isB, isUsed⟩

/-! ## New pages -/

/-- What the system answers when it has a page. -/
structure Given (heap : Heap) (answer : Nat) : Prop where
  nonzero : answer ≠ 0
  apart : ∀ page ∈ heap.pages, Apart answer pageSizeMax page pageSizeMax

theorem Given.block_apart (given : Given heap answer) (chained : Chained heap owner)
    (isBlock : owner block = some page) :
    block + heap.size block ≤ answer ∨ answer + pageSizeMax ≤ block := by
  have ok := chained.block isBlock
  have apart := given.apart page (chained.isPage isBlock)
  have low := ok.low
  have high := ok.high
  unfold Apart at apart
  omega

theorem Given.not_block (given : Given heap answer) (chained : Chained heap owner)
    (isBlock : owner block = some page) : block ≠ answer := by
  have large := (chained.block isBlock).large
  have apart := given.block_apart chained isBlock
  unfold pageSizeMax at apart
  omega

/-- A page with one header becomes one of the pages. -/
theorem Kept.opened (kept : Kept heap owner lists []) (given : Given heap answer)
    (isHeader : heap.header answer = ⟨0, -pageSizeMax, 0#8⟩) :
    Kept { heap with pages := answer :: heap.pages } (Function.update owner answer (some answer))
      lists [answer] := by
  have isSize : heap.size answer = pageSizeMax := by
    unfold Heap.size
    rw [isHeader]
    rfl
  have clearFlags : (heap.header answer).flags = 0#8 := by
    rw [isHeader]
  have isNew : ∀ {b page}, owner b = some page → b ≠ answer := given.not_block kept.chained
  have isOld : ∀ {b page}, Function.update owner answer (some answer) b = some page →
      b ≠ answer → owner b = some page := by
    intro b page isB different
    rwa [Function.update_of_ne different] at isB
  refine ⟨⟨?_, ?_, ?_, ?_, ?_, ?_⟩, ⟨kept.binned.segregated, ?_⟩, ?_, ?_, ?_⟩
  · intro b page isB
    by_cases isHere : b = answer
    · subst isHere
      rw [Function.update_self] at isB
      cases isB
      have isWhole : ({ heap with pages := b :: heap.pages } : Heap).size b = pageSizeMax := isSize
      refine ⟨Nat.le_refl _, by rw [isWhole], by rw [isWhole]; decide, by rw [isWhole]; decide,
        iff_of_true ?_ (by rw [isWhole]), fun inner => absurd (congrArg (b + ·) isWhole) inner⟩
      rw [isHeader]
      decide
    · exact (kept.chained.block (isOld isB isHere)).keep rfl fun place _ isNext _ =>
        ⟨(Function.update_of_ne (isNew isNext) ..).trans isNext, rfl⟩
  · intro b page isB
    by_cases isHere : b = answer
    · rw [isHere, Function.update_self] at isB
      cases isB
      exact List.mem_cons_self
    · exact List.mem_cons_of_mem _ (kept.chained.isPage (isOld isB isHere))
  · intro page isPage
    rcases List.mem_cons.mp isPage with isHere | wasPage
    · rw [isHere, Function.update_self, isHeader]
      exact ⟨rfl, rfl⟩
    · obtain ⟨isStart, isFirst⟩ := kept.chained.start wasPage
      exact ⟨(Function.update_of_ne (isNew isStart) ..).trans isStart, isFirst⟩
  · intro a b first second isA isB before
    change a + heap.size a ≤ b
    by_cases aHere : a = answer
    · have apart := given.block_apart kept.chained (isOld isB (by omega))
      rw [aHere, isSize]
      omega
    by_cases bHere : b = answer
    · have apart := given.block_apart kept.chained (isOld isA aHere)
      unfold pageSizeMax at apart
      omega
    · exact kept.chained.ahead (isOld isA aHere) (isOld isB bHere) before
  · exact List.pairwise_cons.mpr ⟨given.apart, kept.chained.pagesApart⟩
  · exact fun member => (List.mem_cons.mp member).elim (fun isZero => given.nonzero isZero.symm)
      kept.chained.nonzero
  · intro bin b
    rw [kept.binned.listed]
    change _ ↔ _ ∧ (heap.header b).flags = queued ∧ log2 (heap.size b) = bin
    by_cases isHere : b = answer
    · rw [isHere, clearFlags]
      exact iff_unmarked (by decide)
    · rw [Function.update_of_ne isHere]
  · intro b page isB
    by_cases isHere : b = answer
    · exact .inr (.inr (isHere ▸ clearFlags))
    · exact kept.isState (isOld isB isHere)
  · intro b page isB notHole
    exact kept.settled (isOld isB fun isHere => notHole (List.mem_singleton.mpr isHere))
      List.not_mem_nil
  · intro b page n isB isNext
    by_cases isHere : b = answer
    · rintro ⟨isQueued, _⟩
      rw [isHere] at isQueued
      exact absurd (clearFlags.symm.trans isQueued) (by decide)
    · exact kept.coalesced (isOld isB isHere) isNext

theorem newPage_spec (kept : Kept heap owner lists []) (given : Given heap answer) :
    ∃ heap', heap.newPage answer = some heap' ∧
      Kept heap' (Function.update owner answer (some answer)) lists [answer] ∧
      heap'.size answer = pageSizeMax ∧ (heap'.header answer).flags = 0#8 ∧
      (∀ b page, owner b = some page → b ≠ answer ∧ heap'.header b = heap.header b) ∧
      heap'.pool32 = heap.pool32 ∧ heap'.pool64 = heap.pool64 ∧
      heap'.pages = answer :: heap.pages := by
  have isNew : ∀ {b page}, owner b = some page → b ≠ answer := given.not_block kept.chained
  have isField : field24 (-pageSizeMax) = -pageSizeMax := by decide
  have isHeader : (heap.setHeader answer ⟨0, field24 (-pageSizeMax), 0#8⟩).header answer =
      ⟨0, -pageSizeMax, 0#8⟩ := (Function.update_self ..).trans (by rw [isField])
  have written : Kept (heap.setHeader answer ⟨0, field24 (-pageSizeMax), 0#8⟩) owner lists [] :=
    kept.rewritten (fun isB => Function.update_of_ne (isNew isB) ..) (fun _ _ => rfl) rfl rfl
  have opened := written.opened ⟨given.nonzero, given.apart⟩ isHeader
  refine ⟨_, ?_, opened, ?_, ?_,
    fun b page isB => ⟨isNew isB, Function.update_of_ne (isNew isB) ..⟩,
    rfl, rfl, rfl⟩
  · unfold Heap.newPage
    rw [if_neg given.nonzero]
    have asserted := opened.chained.assertPage_eq (Function.update_self ..)
    exact congrArg (Option.bind · fun _ => some _) asserted
  · exact congrArg (fun header => header.size.natAbs) isHeader
  · exact congrArg BlockHeader.flags isHeader

/-! ## The search -/

/-- There is a block in a bin that is searched, or the system has a page. -/
def Available (heap : Heap) (answer bin stop : Nat) : Prop :=
  (∃ other, bin ≤ other ∧ other < stop ∧ heap.bins other ≠ 0) ∨ Given heap answer

theorem search_spec (left : Nat) (kept : Kept heap owner lists []) (isPower : IsPower s)
    (enough : log2 s ≤ bin) (available : Available heap answer bin (bin + left)) :
    ∃ h heap' owner' lists', heap.search answer s left bin = some (h, heap') ∧
      Served heap owner answer s h heap' owner' lists' := by
  induction left generalizing bin with
  | zero =>
      have given : Given heap answer := by
        rcases available with ⟨other, low, high, _⟩ | given
        · omega
        · exact given
      obtain ⟨page, isPage, pageKept, isSize, isClear, others, same32, same64, samePages⟩ :=
        newPage_spec kept given
      have small := isPower.small
      obtain ⟨h, heap', owner', lists', isCarve, served⟩ := carve_spec answer pageKept
        (Function.update_self ..) isClear isPower (by rw [isSize]; unfold pageSizeMax; omega)
      refine ⟨h, heap', owner', lists', ?_, served.widen ?_ ?_ same32 same64
        fun other isPage => List.mem_cons.mp (samePages ▸ isPage)⟩
      · unfold Heap.search
        rw [isPage]
        exact isCarve
      · intro b other isB isActive
        obtain ⟨notNew, sameHeader⟩ := others b other isB
        rw [Function.update_of_ne notNew, sameHeader]
        exact ⟨isB, size_congr (congrArg BlockHeader.size sameHeader), isActive⟩
      · intro b other isB isUsed
        by_cases isHere : b = answer
        · rw [isHere, isClear] at isUsed
          exact absurd isUsed (by decide)
        · rw [Function.update_of_ne isHere] at isB
          rw [(others b other isB).2] at isUsed
          exact ⟨isB, isUsed⟩
  | succ left induction =>
      unfold Heap.search
      by_cases isEmpty : heap.bins bin = 0
      · have isNone : heap.pop bin = (0, heap) := if_neg (not_not.mpr isEmpty)
        rw [isNone]
        refine induction (by omega) ?_
        rcases available with ⟨other, low, high, nonempty⟩ | given
        · have different : other ≠ bin := fun same => nonempty (same ▸ isEmpty)
          exact .inl ⟨other, by omega, by omega, nonempty⟩
        · exact .inr given
      · have isHead := (pop_spec kept.binned isEmpty).1
        have isServed := serve_spec answer kept isEmpty isPower enough
        dsimp only
        rw [if_pos (isHead ▸ isEmpty)]
        exact isServed

/-- Without a block in a bin and without a page the search has no result. -/
theorem search_none {left : Nat} (allEmpty : ∀ other, bin ≤ other → other < bin + left →
      heap.bins other = 0)
    (noPage : ∀ page, heap.newPage answer = some page → page.carve answer s = none) :
    heap.search answer s left bin = none := by
  induction left generalizing bin with
  | zero =>
      unfold Heap.search
      cases isPage : heap.newPage answer with
      | none => rfl
      | some page => exact noPage page isPage
  | succ left induction =>
      have isNone : heap.pop bin = (0, heap) :=
        if_neg (not_not.mpr (allEmpty bin (Nat.le_refl _) (by omega)))
      unfold Heap.search
      rw [isNone]
      exact induction fun other low high => allEmpty other (by omega) (by omega)

theorem IsPower.log2_lt (isPower : IsPower s) : log2 s < numBins := by
  obtain ⟨k, _, high, rfl⟩ := isPower
  unfold log2 numBins
  rw [Nat.log2_two_pow]
  omega

theorem alloc_spec (kept : Kept heap owner lists []) (isPower : IsPower s)
    (available : Available heap answer (log2 s) numBins) :
    ∃ h heap' owner' lists', heap.alloc answer s = some (h, heap') ∧
      Served heap owner answer s h heap' owner' lists' := by
  have small := isPower.log2_lt
  have large := isPower.large
  have isStop : log2 s + (numBins - log2 s) = numBins := by omega
  obtain ⟨h, heap', owner', lists', isSearch, served⟩ :=
    search_spec (numBins - log2 s) kept isPower (Nat.le_refl _) (isStop.symm ▸ available)
  refine ⟨h, heap', owner', lists', ?_, served⟩
  unfold Heap.alloc checkSize
  simp only [assert_of large, assert_of (show s ≠ 0 ∧ s &&& (s - 1) = 0 from
    ⟨by omega, isPower.power⟩), isSearch, Option.bind_eq_bind, Option.bind_some]

theorem alloc_none (allEmpty : ∀ other, log2 s ≤ other → other < numBins → heap.bins other = 0)
    (noPage : ∀ page, heap.newPage answer = some page → page.carve answer s = none) :
    heap.alloc answer s = none := by
  have isNone : heap.search answer s (numBins - log2 s) (log2 s) = none :=
    search_none (fun other low high => allEmpty other low (by omega)) noPage
  unfold Heap.alloc checkSize
  rw [isNone]
  cases assert (32 ≤ s) with
  | none => rfl
  | some _ => cases assert (s ≠ 0 ∧ s &&& (s - 1) = 0) <;> rfl

/-- What does not fit cannot be cut. -/
theorem carve_none (tooLarge : heap.size block - 32 < s) (small : s < 2 ^ 32) :
    heap.carve block s = none := by
  have same : s % 2 ^ 32 = s := Nat.mod_eq_of_lt small
  have noFit : assert (s ≤ heap.size block - 32) = none := if_neg (by omega)
  have noSplit : heap.split block s = none := by
    unfold Heap.split
    rw [noFit]
    cases assert (32 ≤ s) with
    | none => rfl
    | some _ => cases assert (32 ≤ heap.size block) <;> rfl
  unfold Heap.carve
  rw [same, noSplit]
  rfl

/-- The bins of the sizes of pages are empty. -/
theorem Kept.bins_eq_zero (kept : Kept heap owner lists []) (large : 21 ≤ bin) :
    heap.bins bin = 0 := by
  by_contra nonempty
  obtain ⟨_, isListed, _⟩ := pop_spec kept.binned nonempty
  obtain ⟨⟨page, isBlock⟩, _, isBin⟩ := kept.binned.listed.mp isListed
  have bound := (kept.settled isBlock List.not_mem_nil).1
  have positive := (kept.chained.block isBlock).large
  have log := (Nat.log2_lt (n := heap.size (heap.bins bin)) (by omega)).mpr
    (show heap.size (heap.bins bin) < 2 ^ 21 from bound)
  unfold log2 at isBin
  omega

end MallocSurvey.FcMalloc.FcHeap
