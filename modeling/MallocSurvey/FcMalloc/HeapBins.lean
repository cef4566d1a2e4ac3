import MallocSurvey.FcMalloc.HeapBlocks
import MallocSurvey.Library.Segregated

/-! # The bins -/

namespace MallocSurvey.FcMalloc.FcHeap

open Library

variable {heap heap' : Heap} {owner : Nat → Option Nat} {lists : Nat → List Nat}
  {holes : List Nat} {page block bin a n h : Nat}

/-- The blocks that are queued are in the bins of their sizes. -/
structure Binned (heap : Heap) (owner : Nat → Option Nat) (lists : Nat → List Nat) : Prop where
  segregated : Segregated 0 (fun b => (heap.node b).qnext) (fun b => (heap.node b).qprev)
    heap.bins lists
  listed : ∀ {bin b}, b ∈ lists bin ↔
    (∃ page, owner b = some page) ∧ (heap.header b).flags = queued ∧ log2 (heap.size b) = bin

/-- What is not marked is in no bin, before and after. -/
theorem iff_unmarked {before after marked inBin inBin' : Prop} (unmarked : ¬ marked) :
    before ∧ marked ∧ inBin ↔ after ∧ marked ∧ inBin' :=
  iff_of_false (fun listed => unmarked listed.2.1) fun listed => unmarked listed.2.1

/-- A block is in a bin, in use, or in neither state for a moment. -/
def IsState (flags : BitVec 8) : Prop := flags = queued ∨ flags = active ∨ flags = 0#8

/-- What the heap keeps. The state of the blocks in `holes` is about to change. -/
structure Kept (heap : Heap) (owner : Nat → Option Nat) (lists : Nat → List Nat)
    (holes : List Nat) : Prop where
  chained : Chained heap owner
  binned : Binned heap owner lists
  isState : ∀ {b page}, owner b = some page → IsState (heap.header b).flags
  settled : ∀ {b page}, owner b = some page → b ∉ holes →
    heap.size b < pageSizeMax ∧ (heap.header b).flags ≠ 0#8
  coalesced : ∀ {b page n}, owner b = some page → heap.next b = some n →
    ¬ ((heap.header b).flags = queued ∧ (heap.header n).flags = queued)

/-- The sizes, the pools and the pages stay. -/
structure Resting (heap heap' : Heap) : Prop where
  size : ∀ a, (heap'.header a).size = (heap.header a).size
  prevSize : ∀ a, (heap'.header a).prevSize = (heap.header a).prevSize
  pool32 : heap'.pool32 = heap.pool32
  pool64 : heap'.pool64 = heap.pool64
  pages : heap'.pages = heap.pages

theorem Resting.trans {heap'' : Heap} (first : Resting heap heap')
    (second : Resting heap' heap'') : Resting heap heap'' where
  size := fun a => (second.size a).trans (first.size a)
  prevSize := fun a => (second.prevSize a).trans (first.prevSize a)
  pool32 := second.pool32.trans first.pool32
  pool64 := second.pool64.trans first.pool64
  pages := second.pages.trans first.pages

theorem Chained.resting (chained : Chained heap owner) (resting : Resting heap heap') :
    Chained heap' owner :=
  chained.congr resting.pages (fun a _ _ => resting.size a) (fun a _ _ => resting.prevSize a)

/-- Only the headers of the blocks and the nodes of the free ones matter. -/
theorem Kept.rewritten (kept : Kept heap owner lists holes)
    (sameHeader : ∀ {b page}, owner b = some page → heap'.header b = heap.header b)
    (sameNode : ∀ {b page}, owner b = some page → (heap.header b).flags = queued →
      heap'.node b = heap.node b)
    (sameBins : heap'.bins = heap.bins) (samePages : heap'.pages = heap.pages) :
    Kept heap' owner lists holes := by
  have sameSize : ∀ {b page}, owner b = some page → heap'.size b = heap.size b :=
    fun isOwner => size_congr (congrArg BlockHeader.size (sameHeader isOwner))
  have isLinked : ∀ {bin b}, b ∈ lists bin → heap'.node b = heap.node b := by
    intro bin b member
    obtain ⟨⟨page, isOwner⟩, isQueued, _⟩ := kept.binned.listed.mp member
    exact sameNode isOwner isQueued
  refine ⟨kept.chained.congr samePages (fun b page isOwner => by rw [sameHeader isOwner])
    (fun b page isOwner => by rw [sameHeader isOwner]), ⟨?_, ?_⟩, ?_, ?_, ?_⟩
  · rw [sameBins]
    exact kept.binned.segregated.congr (fun bin b member => by rw [isLinked member])
      (fun bin b member => by rw [isLinked member])
  · intro bin b
    rw [kept.binned.listed]
    refine and_congr_right ?_
    rintro ⟨page, isOwner⟩
    rw [sameHeader isOwner, sameSize isOwner]
  · intro b page isOwner
    rw [sameHeader isOwner]
    exact kept.isState isOwner
  · intro b page isOwner notHole
    rw [sameHeader isOwner, sameSize isOwner]
    exact kept.settled isOwner notHole
  · intro b page n isOwner isNext
    rw [next_congr (congrArg BlockHeader.size (sameHeader isOwner))] at isNext
    have isN := ((kept.chained.block isOwner).of_next isNext).2.1
    rw [sameHeader isOwner, sameHeader isN]
    exact kept.coalesced isOwner isNext

/-- The flags of one block change, and its bin with them. -/
theorem Kept.reflagged {value : BitVec 8} {lists' : Nat → List Nat} {holes' : List Nat}
    (kept : Kept heap owner lists holes) (resting : Resting heap heap')
    (flags : ∀ a, (heap'.header a).flags = if a = block then value else (heap.header a).flags)
    (isState : IsState value) (binned : Binned heap' owner lists')
    (isSettled : block ∉ holes' → heap.size block < pageSizeMax ∧ value ≠ 0#8)
    (others : ∀ b, b ≠ block → b ∉ holes' → b ∉ holes)
    (alone : value = queued → ∀ b page n, owner b = some page → heap.next b = some n →
      (b = block → (heap.header n).flags ≠ queued) ∧
        (n = block → (heap.header b).flags ≠ queued)) :
    Kept heap' owner lists' holes' := by
  refine ⟨kept.chained.resting resting, binned, ?_, ?_, ?_⟩
  · intro b page isOwner
    rw [flags]
    split
    · exact isState
    · exact kept.isState isOwner
  · intro b page isOwner notHole
    rw [flags, size_congr (resting.size b)]
    split
    · next isHere => exact isHere ▸ isSettled (isHere ▸ notHole)
    · next notHere => exact kept.settled isOwner (others b notHere notHole)
  · intro b page n isOwner isNext
    rw [next_congr (resting.size b)] at isNext
    rw [flags, flags]
    have place := ((kept.chained.block isOwner).of_next isNext).1
    have large := (kept.chained.block isOwner).large
    rintro ⟨left, right⟩
    split at left
    · next isHere =>
        rw [if_neg (by omega)] at right
        exact (alone left b page n isOwner isNext).1 isHere right
    split at right
    · next isNextHere => exact (alone right b page n isOwner isNext).2 isNextHere left
    · exact kept.coalesced isOwner isNext ⟨left, right⟩

/-! ## Flags and nodes -/

theorem setQueued_false :
    heap.setQueued block false = heap.setFlags block ((heap.header block).flags &&& ~~~queued) := by
  have cleared : ∀ flags : BitVec 8, (flags &&& ~~~queued) &&& queued = 0#8 := by decide
  have notQueued : (heap.setFlags block ((heap.header block).flags &&& ~~~queued)).isQueued
      block = false := by
    simp [Heap.isQueued, cleared]
  exact if_neg (by simpa using notQueued)

theorem setQueued_true :
    heap.setQueued block true =
      (heap.setFlags block ((heap.header block).flags ||| queued)).setNode block ⟨0, 0⟩ := by
  have marked : ∀ flags : BitVec 8, (flags ||| queued) &&& queued ≠ 0#8 := by decide
  have isQueued : (heap.setFlags block ((heap.header block).flags ||| queued)).isQueued
      block = true := by
    simp [Heap.isQueued, marked]
  exact if_pos (by simpa using isQueued)

theorem resting_setFlags (heap : Heap) (block : Nat) (flags : BitVec 8) :
    Resting heap (heap.setFlags block flags) :=
  ⟨fun _ => size_setFlags, fun _ => prevSize_setFlags, rfl, rfl, rfl⟩

section Nodes

variable {value : Nat}

@[simp] theorem qnext_setQnext : ((heap.setQnext block value).node a).qnext =
    if a = block then value else (heap.node a).qnext := by
  refine (congrArg QueueState.qnext (Function.update_apply ..)).trans ?_
  split <;> rfl

@[simp] theorem qprev_setQnext :
    ((heap.setQnext block value).node a).qprev = (heap.node a).qprev :=
  field_update QueueState.qprev rfl

@[simp] theorem qprev_setQprev : ((heap.setQprev block value).node a).qprev =
    if a = block then value else (heap.node a).qprev := by
  refine (congrArg QueueState.qprev (Function.update_apply ..)).trans ?_
  split <;> rfl

@[simp] theorem qnext_setQprev :
    ((heap.setQprev block value).node a).qnext = (heap.node a).qnext :=
  field_update QueueState.qnext rfl

end Nodes

/-! ## A block leaves its bin -/

/-- A block is unlinked and its flag is cleared. -/
structure Unlinked (heap heap' : Heap) (lists : Nat → List Nat) (bin block : Nat) : Prop where
  segregated : Segregated 0 (fun b => (heap'.node b).qnext) (fun b => (heap'.node b).qprev)
    heap'.bins (Function.update lists bin ((lists bin).erase block))
  resting : Resting heap heap'
  header : heap'.header = heap.header

theorem pop_spec (binned : Binned heap owner lists) (nonempty : heap.bins bin ≠ 0) :
    (heap.pop bin).1 = heap.bins bin ∧ heap.bins bin ∈ lists bin ∧
      Unlinked heap (heap.pop bin).2 lists bin (heap.bins bin) := by
  have segregated := binned.segregated
  have isHead : heap.bins bin ∈ lists bin :=
    segregated.head_mem fun isEmpty => nonempty (segregated.head_eq_null_iff.mpr isEmpty)
  have isFirst : (heap.node (heap.bins bin)).qprev = 0 :=
    ((segregated.linked bin).prev_eq_before_iff (segregated.nodup bin) (segregated.noNull bin)
      isHead).mpr (segregated.head bin).symm
  unfold Heap.pop
  rw [if_pos nonempty]
  refine ⟨rfl, isHead, ?_, ?_, ?_⟩
  · refine segregated.erase isHead ?_ ?_ ?_
    · rw [if_pos rfl]
      dsimp only
      split <;> rfl
    · intro other member isMember _
      rw [isFirst, if_neg (segregated.ne_null isMember)]
      dsimp only
      split
      · exact qnext_setQprev
      · rfl
    · intro other member isMember _
      rw [isFirst]
      dsimp only
      split
      · rw [qprev_setQprev]
        rfl
      · next isNull =>
          have notRest : member ≠ (heap.node (heap.bins bin)).qnext := fun isRest =>
            segregated.ne_null isMember (isRest.trans (not_ne_iff.mp isNull))
          rw [if_neg notRest]
          rfl
  · dsimp only
    split <;> exact ⟨fun _ => rfl, fun _ => rfl, rfl, rfl, rfl⟩
  · dsimp only
    split <;> rfl

/-- The nodes after `dequeue` has linked the neighbours of a block to each other. -/
def skip (heap : Heap) (block : Nat) : Heap :=
  let pre := (heap.node block).qprev
  let nxt := (heap.node block).qnext
  let skipped := if pre ≠ 0 then heap.setQnext pre nxt else heap
  if nxt ≠ 0 then skipped.setQprev nxt pre else skipped

theorem skip_spec (binned : Binned heap owner lists) (isListed : block ∈ lists bin)
    (notHead : heap.bins bin ≠ block) : Unlinked heap (skip heap block) lists bin block := by
  have segregated := binned.segregated
  have noNull := segregated.noNull bin
  have notFirst : (heap.node block).qprev ≠ 0 := fun isFirst => notHead
    ((segregated.head bin).trans (((segregated.linked bin).prev_eq_before_iff
      (segregated.nodup bin) noNull isListed).mp isFirst))
  unfold skip
  dsimp only
  rw [if_pos notFirst]
  refine ⟨?_, ?_, ?_⟩
  · refine segregated.erase isListed ?_ ?_ ?_
    · rw [if_neg notHead]
      split <;> rfl
    · intro other member _ _
      split
      · rw [qnext_setQprev, qnext_setQnext]
      · rw [qnext_setQnext]
    · intro other member isMember _
      split
      · rw [qprev_setQprev, qprev_setQnext]
      · next isNull =>
          have notRest : member ≠ (heap.node block).qnext := fun isRest =>
            segregated.ne_null isMember (isRest.trans (not_ne_iff.mp isNull))
          rw [if_neg notRest, qprev_setQnext]
  · split <;> exact ⟨fun _ => rfl, fun _ => rfl, rfl, rfl, rfl⟩
  · split <;> rfl

theorem Binned.member (binned : Binned heap owner lists) (isBlock : owner block = some page)
    (isQueued : (heap.header block).flags = queued) : block ∈ lists (log2 (heap.size block)) :=
  binned.listed.mpr ⟨⟨page, isBlock⟩, isQueued, rfl⟩

theorem Kept.unlinked (kept : Kept heap owner lists holes) (isListed : block ∈ lists bin)
    (unlinked : Unlinked heap heap' lists bin block) :
    Kept (heap'.setQueued block false) owner
        (Function.update lists bin ((lists bin).erase block)) (block :: holes) ∧
      Resting heap (heap'.setQueued block false) ∧
      ∀ a, ((heap'.setQueued block false).header a).flags =
        if a = block then 0#8 else (heap.header a).flags := by
  obtain ⟨_, isQueued, isBin⟩ := kept.binned.listed.mp isListed
  have cleared : (heap'.header block).flags &&& ~~~queued = 0#8 := by
    rw [unlinked.header, isQueued]
    decide
  rw [setQueued_false, cleared]
  have resting := unlinked.resting.trans (resting_setFlags _ block 0#8)
  have flags : ∀ a, ((heap'.setFlags block 0#8).header a).flags =
      if a = block then 0#8 else (heap.header a).flags := by
    intro a
    rw [flags_setFlags, unlinked.header]
  refine ⟨kept.reflagged resting flags (.inr (.inr rfl)) ⟨unlinked.segregated, ?_⟩
    (fun notHole => absurd List.mem_cons_self notHole)
    (fun b _ notHole => fun member => notHole (List.mem_cons_of_mem _ member))
    (fun isMarked => absurd isMarked (by decide)), resting, flags⟩
  intro other b
  rw [flags, size_congr (resting.size b)]
  have nodup := kept.binned.segregated.nodup bin
  by_cases isHere : b = block
  · subst isHere
    refine iff_of_false ?_ ?_
    · intro member
      by_cases same : other = bin
      · rw [same, Function.update_self] at member
        exact nodup.not_mem_erase member
      · rw [Function.update_of_ne same] at member
        exact same (kept.binned.segregated.unique member isListed)
    · rintro ⟨_, isMarked, _⟩
      rw [if_pos rfl] at isMarked
      exact absurd isMarked (by decide)
  · rw [if_neg isHere, ← kept.binned.listed]
    by_cases same : other = bin
    · rw [same, Function.update_self, nodup.mem_erase_iff]
      exact and_iff_right isHere
    · rw [Function.update_of_ne same]

theorem unqueue_spec (kept : Kept heap owner lists holes) (isBlock : owner block = some page)
    (isQueued : (heap.header block).flags = queued) :
    (∃ lists', Kept (heap.unqueue block) owner lists' (block :: holes)) ∧
      Resting heap (heap.unqueue block) ∧
      ∀ a, ((heap.unqueue block).header a).flags =
        if a = block then 0#8 else (heap.header a).flags := by
  have isListed := kept.binned.member isBlock isQueued
  unfold Heap.unqueue
  dsimp only
  split
  · next isHead =>
      have notNull : heap.bins (log2 (heap.size block)) ≠ 0 := by
        rw [isHead]
        exact kept.chained.ne_zero isBlock
      obtain ⟨_, _, unlinked⟩ := pop_spec kept.binned notNull
      rw [isHead] at unlinked
      obtain ⟨isKept, facts⟩ := kept.unlinked isListed unlinked
      exact ⟨⟨_, isKept⟩, facts⟩
  · next notHead =>
      obtain ⟨isKept, facts⟩ := kept.unlinked isListed (skip_spec kept.binned isListed notHead)
      exact ⟨⟨_, isKept⟩, facts⟩

/-! ## A block enters its bin -/

/-- The block that is put into a bin, before it is linked. -/
def idled (heap : Heap) (block : Nat) : Heap := (heap.setActive block false).setQueued block true

theorem ne_queued {flags : BitVec 8} (isFree : flags = active ∨ flags = 0#8) : flags ≠ queued := by
  rcases isFree with rfl | rfl <;> decide

theorem flags_idled (isFree : (heap.header block).flags = active ∨
    (heap.header block).flags = 0#8) :
    ((idled heap block).header a).flags =
      if a = block then queued else (heap.header a).flags := by
  have marked : ∀ flags, flags = active ∨ flags = 0#8 →
      flags &&& ~~~active ||| queued = queued := by
    rintro _ (rfl | rfl) <;> decide
  unfold idled
  rw [setQueued_true]
  unfold Heap.setActive Heap.setNode
  dsimp only
  rw [flags_setFlags, flags_setFlags, flags_setFlags]
  by_cases same : a = block
  · simp [same, marked _ isFree]
  · simp [same]

theorem resting_idled (heap : Heap) (block : Nat) : Resting heap (idled heap block) := by
  unfold idled
  rw [setQueued_true]
  have first := resting_setFlags heap block
    ((heap.header block).flags &&& ~~~active)
  have second := resting_setFlags (heap.setActive block false) block
    (((heap.setActive block false).header block).flags ||| queued)
  have both := first.trans second
  exact ⟨both.size, both.prevSize, both.pool32, both.pool64, both.pages⟩

theorem node_idled : (idled heap block).node = Function.update heap.node block ⟨0, 0⟩ := by
  unfold idled
  rw [setQueued_true]
  rfl

theorem bins_idled : (idled heap block).bins = heap.bins := by
  unfold idled
  rw [setQueued_true]
  rfl

theorem header_push : (heap.push bin block).header = heap.header := by
  unfold Heap.push
  dsimp only
  split <;> rfl

theorem resting_push (heap : Heap) (bin block : Nat) : Resting heap (heap.push bin block) := by
  unfold Heap.push
  dsimp only
  split <;> exact ⟨fun _ => rfl, fun _ => rfl, rfl, rfl, rfl⟩

theorem push_segregated (segregated : Segregated 0 (fun b => (heap.node b).qnext)
      (fun b => (heap.node b).qprev) heap.bins lists)
    (fresh : ∀ other, block ∉ lists other) (notNull : block ≠ 0)
    (isFirst : (heap.node block).qprev = 0) :
    Segregated 0 (fun b => ((heap.push bin block).node b).qnext)
      (fun b => ((heap.push bin block).node b).qprev) (heap.push bin block).bins
      (Function.update lists bin (block :: lists bin)) := by
  have other_ne : ∀ {other member}, member ∈ lists other → member ≠ block :=
    fun isMember same => fresh _ (same ▸ isMember)
  have head_ne : heap.bins bin ≠ 0 → block ≠ heap.bins bin := fun nonempty same =>
    fresh bin (same ▸ segregated.head_mem fun isEmpty =>
      nonempty (segregated.head_eq_null_iff.mpr isEmpty))
  have bins_eq : (heap.push bin block).bins = Function.update heap.bins bin block := by
    unfold Heap.push
    dsimp only
    split <;> rfl
  rw [bins_eq]
  unfold Heap.push
  dsimp only [Heap.setBin]
  by_cases isEmpty : heap.bins bin = 0
  · rw [if_neg (not_not.mpr isEmpty)]
    refine segregated.push fresh notNull ?_ ?_ ?_ ?_
    · rw [qnext_setQnext, if_pos rfl]
    · rw [qprev_setQnext, isFirst]
    · intro other member isMember
      rw [qnext_setQnext, if_neg (other_ne isMember)]
    · intro other member isMember
      rw [qprev_setQnext, isEmpty, if_neg (segregated.ne_null isMember)]
  · rw [if_pos isEmpty]
    refine segregated.push fresh notNull ?_ ?_ ?_ ?_
    · rw [qnext_setQprev, qnext_setQnext, if_pos rfl]
    · rw [qprev_setQprev, if_neg (head_ne isEmpty), qprev_setQnext, isFirst]
    · intro other member isMember
      rw [qnext_setQprev, qnext_setQnext, if_neg (other_ne isMember)]
    · intro other member isMember
      rw [qprev_setQprev, qprev_setQnext]

theorem push_spec (kept : Kept heap owner lists (block :: holes))
    (isBlock : owner block = some page) (small : heap.size block < pageSizeMax)
    (isFree : (heap.header block).flags = active ∨ (heap.header block).flags = 0#8)
    (nextUsed : ∀ n, heap.next block = some n → (heap.header n).flags ≠ queued)
    (prevUsed : ∀ p, heap.prev block = some p → (heap.header p).flags ≠ queued) :
    (∃ lists', Kept ((idled heap block).push (log2 (heap.size block)) block) owner lists' holes) ∧
      Resting heap ((idled heap block).push (log2 (heap.size block)) block) ∧
      ∀ a, (((idled heap block).push (log2 (heap.size block)) block).header a).flags =
        if a = block then queued else (heap.header a).flags := by
  have resting := (resting_idled heap block).trans
    (resting_push _ (log2 (heap.size block)) block)
  have flags : ∀ a, (((idled heap block).push (log2 (heap.size block)) block).header a).flags =
      if a = block then queued else (heap.header a).flags := by
    intro a
    rw [header_push, flags_idled isFree]
  have fresh : ∀ other, block ∉ lists other := fun other member =>
    ne_queued isFree (kept.binned.listed.mp member).2.1
  have other_ne : ∀ {other b}, b ∈ lists other → b ≠ block := by
    rintro other b member rfl
    exact fresh other member
  refine ⟨⟨_, kept.reflagged resting flags (.inl rfl) ⟨push_segregated ?_ fresh
    (kept.chained.ne_zero isBlock) ?_, ?_⟩ (fun _ => ⟨small, by decide⟩)
    (fun b different notHole member => (List.mem_cons.mp member).elim different notHole)
    fun _ b other n isOwner isNext => ⟨?_, ?_⟩⟩, resting, flags⟩
  · rw [bins_idled]
    refine kept.binned.segregated.congr ?_ ?_
    · intro other b member
      rw [node_idled, Function.update_of_ne (other_ne member)]
    · intro other b member
      rw [node_idled, Function.update_of_ne (other_ne member)]
  · rw [node_idled, Function.update_self]
  · intro bin b
    rw [flags, size_congr (resting.size b)]
    by_cases isHere : b = block
    · subst isHere
      rw [if_pos rfl]
      by_cases same : bin = log2 (heap.size b)
      · rw [same, Function.update_self]
        exact iff_of_true List.mem_cons_self ⟨⟨page, isBlock⟩, rfl, rfl⟩
      · rw [Function.update_of_ne same]
        exact iff_of_false (fresh bin) fun inBin => same inBin.2.2.symm
    · rw [if_neg isHere, ← kept.binned.listed]
      by_cases same : bin = log2 (heap.size block)
      · rw [same, Function.update_self, List.mem_cons]
        exact or_iff_right isHere
      · rw [Function.update_of_ne same]
  · rintro rfl
    exact nextUsed n isNext
  · rintro rfl
    exact prevUsed b (kept.chained.prev_next isOwner isNext)

end MallocSurvey.FcMalloc.FcHeap
