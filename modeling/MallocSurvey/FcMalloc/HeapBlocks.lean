import MallocSurvey.FcMalloc.HeapChain

/-! # Splitting and merging blocks -/

namespace MallocSurvey.FcMalloc.FcHeap

open Library

variable {heap heap' : Heap} {owner : Nat → Option Nat} {page block sz n a : Nat}

theorem assert_of {condition : Prop} [Decidable condition] (holds : condition) :
    assert condition = some () :=
  if_pos holds

theorem field24_of_lt {value : Int} (low : -(2 ^ 23) ≤ value) (high : value < 2 ^ 23) :
    field24 value = value :=
  Int.bmod_eq_of_le_mul_two (by omega) (by omega)

theorem size_congr (same : (heap'.header a).size = (heap.header a).size) :
    heap'.size a = heap.size a :=
  congrArg Int.natAbs same

theorem size_of_header {length : Nat} (isSize : (heap.header a).size = length) :
    heap.size a = length :=
  (congrArg Int.natAbs isSize).trans (Int.natAbs_natCast _)

theorem next_congr (same : (heap'.header a).size = (heap.header a).size) :
    heap'.next a = heap.next a := by
  unfold Heap.next Heap.size
  rw [same]

theorem natAbs_of_sign {condition : Prop} [Decidable condition] {length : Nat} :
    (if condition then -(length : Int) else length).natAbs = length := by
  split
  · exact (Int.natAbs_neg _).trans (Int.natAbs_natCast _)
  · exact Int.natAbs_natCast _

/-! ## Headers that are written -/

/-- A field that a write leaves. -/
theorem field_update {α β : Type} {records : Nat → α} {record : α} (field : α → β)
    (same : field record = field (records block)) :
    field (Function.update records block record a) = field (records a) := by
  rw [Function.update_apply]
  split
  · next isHere => rw [isHere, same]
  · rfl

section Writes

variable {value : Int} {flags : BitVec 8} {pointer : Option Nat}

theorem header_setSize : (heap.setSize block value).header a =
    if a = block then { heap.header block with size := field24 value } else heap.header a :=
  Function.update_apply ..

@[simp] theorem size_setSize : ((heap.setSize block value).header a).size =
    if a = block then field24 value else (heap.header a).size := by
  rw [header_setSize]
  split <;> rfl

@[simp] theorem prevSize_setSize :
    ((heap.setSize block value).header a).prevSize = (heap.header a).prevSize :=
  field_update BlockHeader.prevSize rfl

@[simp] theorem flags_setSize :
    ((heap.setSize block value).header a).flags = (heap.header a).flags :=
  field_update BlockHeader.flags rfl

theorem header_setPrevSize : (heap.setPrevSize block value).header a =
    if a = block then { heap.header block with prevSize := value } else heap.header a :=
  Function.update_apply ..

@[simp] theorem size_setPrevSize :
    ((heap.setPrevSize block value).header a).size = (heap.header a).size :=
  field_update BlockHeader.size rfl

@[simp] theorem prevSize_setPrevSize : ((heap.setPrevSize block value).header a).prevSize =
    if a = block then value else (heap.header a).prevSize := by
  rw [header_setPrevSize]
  split <;> rfl

@[simp] theorem flags_setPrevSize :
    ((heap.setPrevSize block value).header a).flags = (heap.header a).flags :=
  field_update BlockHeader.flags rfl

theorem header_setFlags : (heap.setFlags block flags).header a =
    if a = block then { heap.header block with flags := flags } else heap.header a :=
  Function.update_apply ..

@[simp] theorem size_setFlags :
    ((heap.setFlags block flags).header a).size = (heap.header a).size :=
  field_update BlockHeader.size rfl

@[simp] theorem prevSize_setFlags :
    ((heap.setFlags block flags).header a).prevSize = (heap.header a).prevSize :=
  field_update BlockHeader.prevSize rfl

@[simp] theorem flags_setFlags : ((heap.setFlags block flags).header a).flags =
    if a = block then flags else (heap.header a).flags := by
  rw [header_setFlags]
  split <;> rfl

@[simp] theorem size_setPrevSizeOf :
    ((heap.setPrevSizeOf value pointer).header a).size = (heap.header a).size := by
  cases pointer with
  | none => rfl
  | some other => exact size_setPrevSize

@[simp] theorem prevSize_setPrevSizeOf : ((heap.setPrevSizeOf value pointer).header a).prevSize =
    if pointer = some a then value else (heap.header a).prevSize := by
  cases pointer with
  | none => rfl
  | some other => simp [Heap.setPrevSizeOf, eq_comm]

@[simp] theorem flags_setPrevSizeOf :
    ((heap.setPrevSizeOf value pointer).header a).flags = (heap.header a).flags := by
  cases pointer with
  | none => rfl
  | some other => exact flags_setPrevSize

end Writes

/-- Only the sizes in the headers of the blocks matter. -/
theorem Chained.congr (chained : Chained heap owner) (samePages : heap'.pages = heap.pages)
    (sameSize : ∀ a page, owner a = some page → (heap'.header a).size = (heap.header a).size)
    (samePrev : ∀ a page, owner a = some page →
      (heap'.header a).prevSize = (heap.header a).prevSize) :
    Chained heap' owner where
  block := by
    intro a page isBlock
    exact (chained.block isBlock).keep (sameSize a page isBlock)
      fun place _ isNext _ => ⟨isNext, samePrev place page isNext⟩
  isPage := fun isBlock => samePages ▸ chained.isPage isBlock
  start := by
    intro page isPage
    obtain ⟨isStart, isFirst⟩ := chained.start (samePages ▸ isPage)
    exact ⟨isStart, (samePrev _ _ isStart).trans isFirst⟩
  ahead := by
    intro a b page other isA isB before
    rw [size_congr (sameSize a page isA)]
    exact chained.ahead isA isB before
  pagesApart := samePages ▸ chained.pagesApart
  nonzero := samePages ▸ chained.nonzero

theorem BlockOk.size_le (ok : BlockOk heap owner page block) : heap.size block ≤ pageSizeMax := by
  have low := ok.low
  have high := ok.high
  omega

/-! ## A block is cut -/

/-- What a split writes into the headers. -/
structure Cut (heap heap' : Heap) (block sz n : Nat) : Prop where
  place : n = block + (heap.size block - sz)
  front : (heap'.header block).size = (heap.size block - sz : Nat)
  back : (heap'.header n).size = if (heap.header block).size < 0 then -(sz : Int) else sz
  backPrev : (heap'.header n).prevSize = (heap.size block - sz : Nat)
  follow : ¬ (heap.header block).size < 0 →
    (heap'.header (block + heap.size block)).prevSize = sz
  sizes : ∀ a, a ≠ block → a ≠ n → (heap'.header a).size = (heap.header a).size
  prevs : ∀ a, a ≠ n → ((heap.header block).size < 0 ∨ a ≠ block + heap.size block) →
    (heap'.header a).prevSize = (heap.header a).prevSize
  pages : heap'.pages = heap.pages

namespace Cut

variable (cut : Cut heap heap' block sz n)

include cut

theorem size_front : heap'.size block = heap.size block - sz := size_of_header cut.front

theorem size_back : heap'.size n = sz := by
  unfold Heap.size
  rw [cut.back]
  exact natAbs_of_sign

theorem size_of (notBlock : a ≠ block) (notBack : a ≠ n) : heap'.size a = heap.size a :=
  size_congr (cut.sizes a notBlock notBack)

end Cut

/-- The place of the new block is in no other one. -/
theorem Chained.not_block (chained : Chained heap owner) (isBlock : owner block = some page)
    (above : block < n) (below : n < block + heap.size block) : owner n = none := by
  by_contra isSome
  obtain ⟨other, isOther⟩ := Option.ne_none_iff_exists'.mp isSome
  have reach := chained.ahead isBlock isOther above
  omega

/-- No page starts where another block follows. -/
theorem Chained.start_ne_end (chained : Chained heap owner) (isBlock : owner block = some page)
    (isPage : a ∈ heap.pages) : (heap.header block).size < 0 ∨ a ≠ block + heap.size block := by
  have ok := chained.block isBlock
  have large := ok.large
  by_cases isLast : (heap.header block).size < 0
  · exact .inl isLast
  · refine .inr fun isEnd => ?_
    have back := (ok.follow fun isEnd => isLast (ok.sign.mpr isEnd)).2
    rw [← isEnd, (chained.start isPage).2] at back
    omega

theorem Chained.cut (chained : Chained heap owner) (isBlock : owner block = some page)
    (large : 32 ≤ sz) (multiple : sz % 32 = 0) (fits : sz + 32 ≤ heap.size block)
    (cut : Cut heap heap' block sz n) :
    Chained heap' (Function.update owner n (some page)) := by
  have ok := chained.block isBlock
  have place := cut.place
  have isNew : owner n = none := chained.not_block isBlock (by omega) (by omega)
  have low := ok.low
  have high := ok.high
  have blockMultiple := ok.multiple
  have sign := ok.sign
  have frontSize := cut.size_front
  have backSize := cut.size_back
  have notNew : ∀ {a other}, owner a = some other → a ≠ n := by
    rintro a other isOther rfl
    rw [isNew] at isOther
    cases isOther
  constructor
  · intro a other isA
    by_cases isBack : a = n
    · -- the end of the block, with what was behind it
      subst isBack
      rw [Function.update_self] at isA
      cases isA
      refine ⟨by omega, by omega, by omega, by omega, ?_, ?_⟩
      · rw [cut.back, backSize]
        split
        · next isLast => have isEnd := sign.mp isLast; omega
        · next inner => omega
      · intro inner
        have inner' : block + heap.size block ≠ page + pageSizeMax := by omega
        obtain ⟨isNext, _⟩ := ok.follow inner'
        have sameEnd : a + heap'.size a = block + heap.size block := by omega
        rw [sameEnd, Function.update_of_ne (notNew isNext), backSize]
        exact ⟨isNext, cut.follow fun isLast => inner' (sign.mp isLast)⟩
    rw [Function.update_of_ne isBack] at isA
    by_cases isFront : a = block
    · subst isFront
      rw [isBlock] at isA
      cases isA
      refine ⟨low, by omega, by omega, by omega, ?_, ?_⟩
      · rw [cut.front, frontSize]
        omega
      · intro _
        have sameEnd : a + heap'.size a = n := by omega
        rw [sameEnd, Function.update_self, frontSize]
        exact ⟨rfl, cut.backPrev⟩
    · have otherOk := chained.block isA
      refine otherOk.keep (cut.sizes a isFront isBack) fun after isAfter isNext _ => ?_
      rw [Function.update_of_ne (notNew isNext)]
      -- two blocks do not end at one place
      have otherLarge := otherOk.large
      have apart := chained.apart isA isBlock isFront
      unfold Apart at apart
      exact ⟨isNext, cut.prevs _ (notNew isNext) (.inr (by omega))⟩
  · intro a other isA
    rw [cut.pages]
    by_cases isBack : a = n
    · subst isBack
      rw [Function.update_self] at isA
      cases isA
      exact chained.isPage isBlock
    · rw [Function.update_of_ne isBack] at isA
      exact chained.isPage isA
  · intro other isPage
    rw [cut.pages] at isPage
    obtain ⟨isStart, isFirst⟩ := chained.start isPage
    rw [Function.update_of_ne (notNew isStart)]
    exact ⟨isStart, (cut.prevs _ (notNew isStart)
      (chained.start_ne_end isBlock isPage)).trans isFirst⟩
  · intro a b first second isA isB before
    by_cases aBack : a = n
    · subst aBack
      rw [Function.update_of_ne (by omega)] at isB
      have reach := chained.ahead isBlock isB (by omega)
      omega
    rw [Function.update_of_ne aBack] at isA
    have shorter : heap'.size a ≤ heap.size a := by
      by_cases aFront : a = block
      · rw [aFront, frontSize]
        exact Nat.sub_le _ _
      · exact (cut.size_of aFront aBack).le
    by_cases bBack : b = n
    · subst bBack
      by_cases aFront : a = block
      · rw [aFront, frontSize]
        exact place.ge
      · have otherOk := chained.block isA
        have otherLarge := otherOk.large
        have apart := chained.apart isA isBlock aFront
        unfold Apart at apart
        omega
    · rw [Function.update_of_ne bBack] at isB
      have reach := chained.ahead isA isB before
      omega
  · rw [cut.pages]
    exact chained.pagesApart
  · rw [cut.pages]
    exact chained.nonzero

/-- Nodes, bins, pools and pages stay. -/
structure Aside (heap heap' : Heap) : Prop where
  node : heap'.node = heap.node
  bins : heap'.bins = heap.bins
  pool32 : heap'.pool32 = heap.pool32
  pool64 : heap'.pool64 = heap.pool64

theorem shorten_spec (large : 32 ≤ sz) (fits : sz + 32 ≤ heap.size block)
    (bound : heap.size block ≤ pageSizeMax) :
    ((heap.shorten block sz).header block).size = (heap.size block - sz : Nat) ∧
      (heap.shorten block sz).next block = some (block + (heap.size block - sz)) := by
  unfold pageSizeMax at bound
  have shorter : ((heap.shorten block sz).header block).size = (heap.size block - sz : Nat) := by
    unfold Heap.shorten
    rw [size_setSize, if_pos rfl]
    refine Eq.trans (field24_of_lt (by omega) (by omega)) ?_
    omega
  refine ⟨shorter, ?_⟩
  unfold Heap.next
  rw [size_of_header shorter, shorter, if_neg (by omega)]

theorem cutAt_spec (chained : Chained heap owner) (isBlock : owner block = some page)
    (large : 32 ≤ sz) (fits : sz + 32 ≤ heap.size block)
    (place : n = block + (heap.size block - sz)) :
    Cut heap (heap.cutAt block sz n) block sz n ∧
      (∀ a, ((heap.cutAt block sz n).header a).flags = (heap.header a).flags) ∧
      Aside heap (heap.cutAt block sz n) := by
  have ok := chained.block isBlock
  have bound := ok.size_le
  unfold pageSizeMax at bound
  have notBlock : n ≠ block := by omega
  have frontField : field24 ((heap.size block : Int) - sz) = (heap.size block - sz : Nat) := by
    rw [field24_of_lt (by omega) (by omega)]
    omega
  have backField : field24 (if (heap.header block).size < 0 then -(sz : Int) else sz) =
      if (heap.header block).size < 0 then -(sz : Int) else sz := by
    split <;> exact field24_of_lt (by omega) (by omega)
  have sign := ok.sign
  have isNext : ∀ {a}, heap.next block = some a →
      a = block + heap.size block ∧ ¬ (heap.header block).size < 0 := by
    intro a isNext
    obtain ⟨isEnd, _⟩ := ok.of_next isNext
    refine ⟨isEnd, fun isLast => ?_⟩
    rw [ok.next_of_eq (sign.mp isLast)] at isNext
    cases isNext
  have notNext : heap.next block ≠ some n := fun isN => by
    have isEnd := (isNext isN).1
    omega
  unfold Heap.cutAt Heap.shorten
  refine ⟨⟨place, ?_, ?_, ?_, ?_, ?_, ?_, ?_⟩, ?_, ?_⟩
  · simp [Ne.symm notBlock, frontField]
  · simp [backField]
  · simp [notNext, frontField]
  · intro inner
    simp only [inner, if_false] at backField ⊢
    simp [ok.next_of_ne fun isEnd => inner (sign.mpr isEnd), backField]
  · intro a notFront notBack
    simp [notFront, notBack]
  · intro a notBack elsewhere
    have notA : heap.next block ≠ some a := fun isA => by
      obtain ⟨isEnd, inner⟩ := isNext isA
      exact elsewhere.elim inner fun notEnd => notEnd isEnd
    simp [notBack, notA]
  · cases heap.next block <;> rfl
  · intro a
    simp
  · cases heap.next block <;> exact ⟨rfl, rfl, rfl, rfl⟩

theorem Cut.setFlags (cut : Cut heap heap' block sz n) (flags : BitVec 8) :
    Cut heap (heap'.setFlags a flags) block sz n where
  place := cut.place
  front := size_setFlags.trans cut.front
  back := size_setFlags.trans cut.back
  backPrev := prevSize_setFlags.trans cut.backPrev
  follow := fun inner => prevSize_setFlags.trans (cut.follow inner)
  sizes := fun a notFront notBack => size_setFlags.trans (cut.sizes a notFront notBack)
  prevs := fun a notBack elsewhere => prevSize_setFlags.trans (cut.prevs a notBack elsewhere)
  pages := cut.pages

theorem split_spec (chained : Chained heap owner) (isBlock : owner block = some page)
    (large : 32 ≤ sz) (multiple : sz % 32 = 0) (power : sz &&& (sz - 1) = 0)
    (fits : sz + 32 ≤ heap.size block) (place : n = block + (heap.size block - sz)) :
    ∃ heap', heap.split block sz = some (n, heap') ∧ Cut heap heap' block sz n ∧
      (∀ a, (heap'.header a).flags = if a = n then 0#8 else (heap.header a).flags) ∧
      Aside heap heap' := by
  have ok := chained.block isBlock
  obtain ⟨shorterSize, shorterNext⟩ := shorten_spec large fits ok.size_le
  obtain ⟨cut, sameFlags, aside⟩ := cutAt_spec chained isBlock large fits place
  have linked := chained.cut isBlock large multiple fits cut
  have front := cut.size_front
  have back := cut.size_back
  have isNew : Function.update owner n (some page) n = some page := Function.update_self ..
  have stays : Function.update owner n (some page) block = some page := by
    rw [Function.update_of_ne (by omega), isBlock]
  have frontOk := linked.block stays
  have backOk := linked.block isNew
  have high := ok.high
  have frontNext : (heap.cutAt block sz n).next block = some n := by
    rw [frontOk.next_of_ne (by omega), front, place]
  have backNext : (heap.cutAt block sz n).next n = heap.next block := by
    have sameEnd : n + sz = block + heap.size block := by omega
    rw [backOk.next_eq, ok.next_eq, back, sameEnd]
  have backPrev : (heap.cutAt block sz n).prev n = some block := linked.prev_next stays frontNext
  have total : (heap.cutAt block sz n).size block + (heap.cutAt block sz n).size n =
      (heap.header block).size.natAbs := by
    rw [front, back]
    exact Nat.sub_add_cancel (by omega)
  refine ⟨(heap.cutAt block sz n).setFlags n 0#8, ?_, cut.setFlags 0#8, ?_,
    ⟨aside.node, aside.bins, aside.pool32, aside.pool64⟩⟩
  · unfold Heap.split checkSize
    rw [← place] at shorterNext
    simp only [assert_of large, assert_of (show 32 ≤ heap.size block by omega),
      assert_of (show sz ≤ heap.size block - 32 by omega), chained.assertPage_eq isBlock,
      assert_of ok.size_ne_bad,
      assert_of (show sz ≠ 0 ∧ sz &&& (sz - 1) = 0 from ⟨by omega, power⟩),
      assert_of (show ((heap.shorten block sz).header block).size ≠ 0 by omega),
      shorterNext, assert_of total, assert_of backNext, assert_of backPrev, assert_of frontNext,
      linked.assertPage_eq stays, linked.assertPage_eq isNew,
      assert_of (show n ≠ block by omega), Option.bind_eq_bind, Option.bind_some]
    rfl
  · intro a
    rw [flags_setFlags, sameFlags]

/-! ## Two blocks are joined -/

/-- What a merge writes into the headers. -/
structure Joined (heap heap' : Heap) (block n : Nat) : Prop where
  place : n = block + heap.size block
  whole : (heap'.header block).size =
    if (heap.header n).size < 0 then -((heap.size block + heap.size n : Nat) : Int)
    else (heap.size block + heap.size n : Nat)
  follow : ¬ (heap.header n).size < 0 →
    (heap'.header (n + heap.size n)).prevSize = (heap.size block + heap.size n : Nat)
  sizes : ∀ a, a ≠ block → a ≠ n → (heap'.header a).size = (heap.header a).size
  prevs : ∀ a, ((heap.header n).size < 0 ∨ a ≠ n + heap.size n) →
    (heap'.header a).prevSize = (heap.header a).prevSize
  pages : heap'.pages = heap.pages

namespace Joined

variable (joined : Joined heap heap' block n)

include joined

theorem size_whole : heap'.size block = heap.size block + heap.size n := by
  unfold Heap.size at *
  rw [joined.whole]
  exact natAbs_of_sign

theorem size_of (notBlock : a ≠ block) (notNext : a ≠ n) : heap'.size a = heap.size a :=
  size_congr (joined.sizes a notBlock notNext)

end Joined

/-- The others are what they were. -/
theorem of_erased (isBlock : Function.update owner n none a = some page) :
    a ≠ n ∧ owner a = some page := by
  by_cases isHere : a = n
  · rw [isHere, Function.update_self] at isBlock
    cases isBlock
  · exact ⟨isHere, by rwa [Function.update_of_ne isHere] at isBlock⟩

theorem Chained.join (chained : Chained heap owner) (isBlock : owner block = some page)
    (isNext : owner n = some page) (joined : Joined heap heap' block n) :
    Chained heap' (Function.update owner n none) := by
  have ok := chained.block isBlock
  have nextOk := chained.block isNext
  have place := joined.place
  have low := ok.low
  have large := ok.large
  have nextLarge := nextOk.large
  have nextHigh := nextOk.high
  have nextSign := nextOk.sign
  have blockMultiple := ok.multiple
  have nextMultiple := nextOk.multiple
  have wholeSize := joined.size_whole
  constructor
  · intro a other isStill
    obtain ⟨notNext, isA⟩ := of_erased isStill
    by_cases isFront : a = block
    · subst isFront
      rw [isBlock] at isA
      cases isA
      refine ⟨low, by omega, by omega, by omega, ?_, ?_⟩
      · rw [joined.whole, wholeSize]
        split
        · next isLast => have isEnd := nextSign.mp isLast; omega
        · next inner => omega
      · intro inner
        have inner' : n + heap.size n ≠ page + pageSizeMax := by omega
        obtain ⟨isAfter, _⟩ := nextOk.follow inner'
        have sameEnd : a + heap'.size a = n + heap.size n := by omega
        rw [sameEnd, Function.update_of_ne (by omega), wholeSize]
        exact ⟨isAfter, joined.follow fun isLast => inner' (nextSign.mp isLast)⟩
    · have otherOk := chained.block isA
      refine otherOk.keep (joined.sizes a isFront notNext) fun after isAfter isOther _ => ?_
      have otherLarge := otherOk.large
      have apart := chained.apart isA isBlock isFront
      have nextApart := chained.apart isA isNext notNext
      unfold Apart at apart nextApart
      rw [Function.update_of_ne (by omega)]
      exact ⟨isOther, joined.prevs _ (.inr (by omega))⟩
  · intro a other isStill
    rw [joined.pages]
    exact chained.isPage (of_erased isStill).2
  · intro other isPage
    rw [joined.pages] at isPage
    obtain ⟨isStart, isFirst⟩ := chained.start isPage
    have notNext : other ≠ n := by
      have sign := ok.sign
      have notEnd := chained.start_ne_end isBlock isPage
      omega
    rw [Function.update_of_ne notNext]
    exact ⟨isStart, (joined.prevs _ (chained.start_ne_end isNext isPage)).trans isFirst⟩
  · intro a b first second aStill bStill before
    obtain ⟨aNotNext, isA⟩ := of_erased aStill
    obtain ⟨bNotNext, isB⟩ := of_erased bStill
    have reach := chained.ahead isA isB before
    by_cases aFront : a = block
    · subst aFront
      have reachNext := chained.ahead isNext isB (by omega)
      omega
    · rw [joined.size_of aFront aNotNext]
      exact reach
  · rw [joined.pages]
    exact chained.pagesApart
  · rw [joined.pages]
    exact chained.nonzero

theorem absorb_spec (chained : Chained heap owner) (isBlock : owner block = some page)
    (isNext : heap.next block = some n) :
    Joined heap (heap.absorb block n) block n ∧
      (∀ a, ((heap.absorb block n).header a).flags = (heap.header a).flags) ∧
      Aside heap (heap.absorb block n) := by
  have ok := chained.block isBlock
  obtain ⟨place, isOwner, _⟩ := ok.of_next isNext
  have nextOk := chained.block isOwner
  have nextSign := nextOk.sign
  have sign := ok.sign
  have low := ok.low
  have high := nextOk.high
  have large := ok.large
  have nextLarge := nextOk.large
  have notBlock : n ≠ block := by omega
  have frontSize : (heap.header block).size = heap.size block := by
    unfold Heap.size at *
    omega
  have grownField : field24 ((heap.header block).size + heap.size n) =
      (heap.size block + heap.size n : Nat) := by
    unfold pageSizeMax at high
    rw [frontSize, field24_of_lt (by omega) (by omega), Int.natCast_add]
  have shrunkField : field24 (-((heap.size block + heap.size n : Nat) : Int)) =
      -((heap.size block + heap.size n : Nat) : Int) := by
    unfold pageSizeMax at high
    exact field24_of_lt (by omega) (by omega)
  have grownHeader : ((heap.grow block n).header block).size =
      (heap.size block + heap.size n : Nat) := by
    unfold Heap.grow
    rw [size_setSize, if_pos rfl, grownField]
  have grownSize := size_of_header grownHeader
  have grownNext : (heap.grow block n).next block = some (n + heap.size n) := by
    unfold Heap.next
    rw [grownSize, grownHeader, if_neg (by omega), place, Nat.add_assoc]
  have nextHeader : ((heap.grow block n).header n).size = (heap.header n).size := by
    unfold Heap.grow
    rw [size_setSize, if_neg notBlock]
  unfold Heap.absorb
  dsimp only
  by_cases isLast : (heap.header n).size < 0
  · rw [nextHeader, if_neg (by omega), grownHeader]
    refine ⟨⟨place, ?_, fun inner => absurd isLast inner, ?_, ?_, rfl⟩, ?_, ⟨rfl, rfl, rfl, rfl⟩⟩
    · rw [if_pos isLast, size_setSize, if_pos rfl, shrunkField]
    · intro a notFront notNext
      simp [Heap.grow, notFront]
    · intro a _
      simp [Heap.grow]
    · intro a
      simp [Heap.grow]
  · have nextNe := nextOk.size_ne_zero
    rw [nextHeader, if_pos (by omega), grownNext, grownSize]
    refine ⟨⟨place, ?_, ?_, ?_, ?_, rfl⟩, ?_, ⟨rfl, rfl, rfl, rfl⟩⟩
    · rw [if_neg isLast, size_setPrevSizeOf, grownHeader]
    · intro _
      rw [prevSize_setPrevSizeOf, if_pos rfl]
    · intro a notFront notNext
      simp [Heap.grow, notFront]
    · intro a elsewhere
      have notEnd : some (n + heap.size n) ≠ some a := fun isEnd => by
        cases isEnd
        exact elsewhere.elim isLast (fun notEnd => notEnd rfl)
      rw [prevSize_setPrevSizeOf, if_neg notEnd]
      simp [Heap.grow]
    · intro a
      simp [Heap.grow]

theorem mergeNext_spec (chained : Chained heap owner) (isBlock : owner block = some page)
    (isNext : heap.next block = some n) :
    ∃ heap', heap.mergeNext block = some heap' ∧ Joined heap heap' block n ∧
      (∀ a, (heap'.header a).flags = (heap.header a).flags) ∧ Aside heap heap' := by
  have ok := chained.block isBlock
  obtain ⟨place, isOwner, _⟩ := ok.of_next isNext
  have nextOk := chained.block isOwner
  have large := ok.large
  have nextLarge := nextOk.large
  obtain ⟨joined, sameFlags, aside⟩ := absorb_spec chained isBlock isNext
  have merged : Joined heap ((heap.absorb block n).setSize n 0xbad) block n := by
    refine ⟨place, ?_, ?_, ?_, ?_, joined.pages⟩
    · rw [size_setSize, if_neg (by omega)]
      exact joined.whole
    · intro inner
      rw [prevSize_setSize]
      exact joined.follow inner
    · intro a notFront notNext
      rw [size_setSize, if_neg notNext]
      exact joined.sizes a notFront notNext
    · intro a elsewhere
      rw [prevSize_setSize]
      exact joined.prevs a elsewhere
  have chained' := chained.join isBlock isOwner merged
  have stays : Function.update owner n none block = some page := by
    rw [Function.update_of_ne (by omega), isBlock]
  have whole := chained'.block stays
  have wholeSize := merged.size_whole
  have grownNe : ((heap.grow block n).header block).size ≠ 0 := by
    have sign := ok.sign
    have low := ok.low
    have high := nextOk.high
    unfold Heap.grow
    rw [size_setSize, if_pos rfl]
    clear merged chained' whole
    unfold pageSizeMax Heap.size at *
    rw [field24_of_lt (by omega) (by omega)]
    omega
  have absorbedNe : ((heap.absorb block n).header block).size ≠ 0 := by
    rw [joined.whole]
    split <;> omega
  have positive : 0 < (heap.header block).size := by
    have sign := ok.sign
    have high := nextOk.high
    have size_ne := ok.size_ne_zero
    omega
  have asserted : ((heap.absorb block n).setSize n 0xbad).assertMerged block
      (((heap.absorb block n).setSize n 0xbad).next block) = some () := by
    cases isAfter : ((heap.absorb block n).setSize n 0xbad).next block with
    | none => rfl
    | some m =>
        obtain ⟨end_eq, _, back⟩ := whole.of_next isAfter
        unfold Heap.assertMerged
        dsimp only
        rw [assert_of (by omega), assert_of back, chained'.assertPage_eq stays]
        rfl
  refine ⟨_, ?_, merged, fun a => flags_setSize.trans (sameFlags a),
    ⟨aside.node, aside.bins, aside.pool32, aside.pool64⟩⟩
  unfold Heap.mergeNext
  simp only [assert_of ok.size_ne_bad, isNext, assert_of nextOk.size_ne_bad,
    assert_of (show 0 < heap.size n by omega), assert_of positive, assert_of grownNe,
    assert_of absorbedNe, asserted, Option.bind_eq_bind, Option.bind_some,
    assert_of (show heap.size block < ((heap.absorb block n).setSize n 0xbad).size block by omega)]
  rfl

end MallocSurvey.FcMalloc.FcHeap
