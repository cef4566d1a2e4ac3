import MallocSurvey.FcMalloc.HeapSystem

/-! # What the heap keeps in every run -/

namespace MallocSurvey.FcMalloc.FcHeap.State

open Library

variable {heap heap' : Heap} {owner : Nat → Option Nat} {lists : Nat → List Nat}
  {ptrs : List Nat} {state next : State} {event : Event} {allowed : State → Event → Prop}
  {page b n p q k s answer : Nat}

/-! ## Steps -/

theorem started_inv (started : Started state) : Inv state := by
  have noPages := started.pages
  have noLive : state.ptrs = [] := by
    unfold State.ptrs
    rw [started.live]
    rfl
  rw [Inv, noLive]
  refine ⟨fun _ => none, fun _ => [], ⟨⟨⟨nofun, nofun, ?_, nofun, ?_, ?_⟩, ⟨⟨started.bins,
    fun _ => trivial, fun _ => List.nodup_nil, nofun, fun _ => List.not_mem_nil⟩, ?_⟩, nofun, nofun,
    nofun⟩, started.apart⟩, List.nodup_nil, fun kind => ⟨started.nonzero kind, ?_, ?_⟩, nofun,
    nofun⟩
  · rw [noPages]
    nofun
  · rw [noPages]
    exact .nil
  · rw [noPages]
    exact List.not_mem_nil
  · intro bin b
    refine iff_of_false List.not_mem_nil ?_
    rintro ⟨⟨_, isSome⟩, _⟩
    cases isSome
  · rw [started.scanPos]
    cases kind <;> decide
  · intro k _
    unfold Pool.bit
    rw [started.isFree, BitVec.getLsbD_allOnes, decide_eq_true (by omega)]
    simp

theorem isQueued_iff {flags : BitVec 8} (isState : IsState flags) :
    (flags &&& queued ≠ 0#8) ↔ flags = queued := by
  rcases isState with rfl | rfl | rfl <;> decide

/-- The headers and the nodes that the heap relies on stay. -/
theorem Sorted.rewritten (sorted : Sorted heap ptrs owner lists) (heap' : Heap)
    (sameHeader : ∀ {b page}, owner b = some page → heap'.header b = heap.header b)
    (sameNode : ∀ {b page}, owner b = some page → (heap.header b).flags = queued →
      heap'.node b = heap.node b)
    (sameBins : heap'.bins = heap.bins) (samePool : poolOf heap' = poolOf heap)
    (samePages : heap'.pages = heap.pages) :
    Sorted heap' ptrs owner lists ∧ ∀ q ∈ ptrs, usable heap' q = usable heap q := by
  have placed : Placed heap' owner lists := by
    refine ⟨sorted.kept.rewritten sameHeader sameNode sameBins samePages, ?_⟩
    unfold regions
    rw [samePool, samePages]
    exact sorted.regionsApart
  refine ⟨⟨placed, sorted.nodup, samePool ▸ sorted.slots, ?_, ?_⟩, ?_⟩
  · intro q member
    unfold IsSlot slotAt
    rw [samePool]
    refine (sorted.isPlace q member).imp id ?_
    rintro ⟨b, page, isB, isOwner, isUsed⟩
    exact ⟨b, page, isB, isOwner, by rw [sameHeader isOwner, isUsed]⟩
  · intro b page isOwner isUsed
    rw [sameHeader isOwner] at isUsed
    exact sorted.isListed isOwner isUsed
  · intro q member
    refine usable_same sorted.toPlaced placed samePool ((sorted.isPlace q member).imp id ?_)
    rintro ⟨b, page, isB, isOwner, _⟩
    exact ⟨b, page, isB, isOwner, isOwner,
      size_congr (congrArg BlockHeader.size (sameHeader isOwner))⟩

theorem mem_of_owner (placed : Placed heap owner lists) (isOwner : owner b = some page) :
    page ∈ heap.pages ∧ b ∈ heap.blocks page :=
  have isPage := placed.kept.chained.isPage isOwner
  ⟨isPage, (placed.kept.chained.mem_blocks isPage).mpr isOwner⟩

theorem isQueued_of_owner (placed : Placed heap owner lists) (isOwner : owner b = some page) :
    heap.isQueued b = true ↔ (heap.header b).flags = queued := by
  unfold Heap.isQueued
  rw [decide_eq_true_iff]
  exact isQueued_iff (placed.kept.isState isOwner)

/-- A step keeps the invariant, and what is in use before and after it. -/
theorem step_spec (inv : Inv state) (enabled : Enabled state event)
    (result : step state event = some next) :
    Inv next ∧ (∀ q ∈ state.ptrs, q ∈ next.ptrs → usable next.heap q = usable state.heap q) ∧
      ∀ p s, (p, s) ∈ next.live → (p, s) ∈ state.live ∨
        (s < 2 ^ 64 - 8 → s ≤ usable next.heap p) := by
  obtain ⟨heap, live⟩ := state
  obtain ⟨owner, lists, sorted⟩ := inv
  cases event with
  | malloc s answer =>
      obtain ⟨word, isAnswer⟩ := enabled
      unfold step at result
      obtain ⟨⟨p, heap'⟩, isCall, isNext⟩ := Option.bind_eq_some_iff.mp result
      cases isNext
      have spec : ∃ granted, (s < 2 ^ 64 - 8 → s ≤ granted) ∧
          Malloced ⟨heap, live⟩ s granted p heap' := by
        by_cases small : s ≤ 2 ^ 20 - 8
        · by_cases room : HasRoom heap answer s
          · obtain ⟨p', heap'', isCall', malloced⟩ := malloc_spec sorted isAnswer small room
            cases isCall.symm.trans isCall'
            exact ⟨s, fun _ => Nat.le_refl s, malloced⟩
          · cases isCall.symm.trans (malloc_none_of_room small room)
        · by_cases noWrap : s < 2 ^ 64 - 8
          · cases isCall.symm.trans
              (malloc_none_of_large sorted.toPlaced isAnswer (by omega) noWrap)
          · rcases malloc_wrapped (s := s) sorted isAnswer (by omega) word with isNone |
              ⟨p', heap'', isCall', malloced, _⟩
            · cases isCall.symm.trans isNone
            · cases isCall.symm.trans isCall'
              exact ⟨24, fun small => absurd small noWrap, malloced⟩
      obtain ⟨granted, enough, malloced⟩ := spec
      refine ⟨malloced.inv, fun q member _ => malloced.same q member, ?_⟩
      intro q asked member
      dsimp only at member
      split at member
      · exact .inl member
      · next nonzero =>
          rcases List.mem_cons.mp member with isNew | isOld
          · cases isNew
            exact .inr fun small => (enough small).trans (malloced.large nonzero)
          · exact .inl isOld
  | free f =>
      unfold step at result
      obtain ⟨heap', isCall, isNext⟩ := Option.bind_eq_some_iff.mp result
      cases isNext
      obtain ⟨heap'', isCall', inv, same⟩ := fcFree_spec sorted enabled
      cases isCall.symm.trans isCall'
      refine ⟨inv, fun q isOld isLeft => same q isOld ?_, fun q asked member =>
        .inl (List.mem_of_mem_eraseP member)⟩
      unfold ptrs at isLeft
      rw [map_eraseP] at isLeft
      exact (sorted.nodup.mem_erase_iff.mp isLeft).1
  | writeHeader address header =>
      cases result
      obtain ⟨sorted', same⟩ := sorted.rewritten (heap.setHeader address header)
        (fun isOwner => Function.update_of_ne (by
          rintro rfl
          obtain ⟨isPage, member⟩ := mem_of_owner sorted.toPlaced isOwner
          exact enabled _ isPage member) ..) (fun _ _ => rfl) rfl rfl rfl
      exact ⟨⟨owner, lists, sorted'⟩, fun q member _ => same q member, fun _ _ => .inl⟩
  | writeNode address node =>
      cases result
      obtain ⟨sorted', same⟩ := sorted.rewritten (heap.setNode address node)
        (fun _ => rfl) (fun isOwner isQueued => Function.update_of_ne (by
          rintro rfl
          obtain ⟨isPage, member⟩ := mem_of_owner sorted.toPlaced isOwner
          have notQueued := enabled _ isPage member
          rw [(isQueued_of_owner sorted.toPlaced isOwner).mpr isQueued] at notQueued
          cases notQueued) ..) rfl rfl rfl
      exact ⟨⟨owner, lists, sorted'⟩, fun q member _ => same q member, fun _ _ => .inl⟩

/-! ## Runs -/

/-- Every pointer in use has the bytes that were asked for, if `s + 8` does not wrap. -/
def Granted (state : State) : Prop :=
  ∀ p s, (p, s) ∈ state.live → s < 2 ^ 64 - 8 → s ≤ usable state.heap p

theorem reachable_inv (reachable : machine.Reachable allowed state) :
    Inv state ∧ Granted state := by
  apply reachable.invariant
  · intro state started
    refine ⟨started_inv started, fun p s member => ?_⟩
    rw [started.live] at member
    cases member
  · rintro state event next ⟨inv, granted⟩ enabled _ result
    obtain ⟨newInv, same, isLive⟩ := step_spec inv enabled result
    refine ⟨newInv, fun p s member small => ?_⟩
    rcases isLive p s member with isOld | isNew
    · rw [same p (List.mem_map_of_mem isOld) (List.mem_map_of_mem member)]
      exact granted p s isOld small
    · exact isNew small

/-! ## The pointers in use -/

section InUse

variable (sorted : Sorted heap ptrs owner lists)

include sorted

theorem usable_apart (isP : p ∈ ptrs) (isQ : q ∈ ptrs) (different : p ≠ q) :
    Apart p (usable heap p) q (usable heap q) := by
  have placed := sorted.toPlaced
  have chained := sorted.kept.chained
  have isEnd : ∀ {b page}, owner b = some page →
      b + sizeofHeader + usable heap (b + sizeofHeader) = b + heap.size b := by
    intro b page isOwner
    have large := (chained.block isOwner).large
    rw [usable_block placed isOwner]
    unfold sizeofHeader
    omega
  -- a slot and a block are in different regions
  have ofBlock : ∀ {kind k b page}, k < Kind.slots kind → owner b = some page →
      Apart (slotAt heap kind k) kind.width (b + sizeofHeader)
        (usable heap (b + sizeofHeader)) := by
    intro kind k b page inside isOwner
    have bounds := slotAt_inside heap inside
    have apart := page_apart placed kind (chained.isPage isOwner)
    have low := (chained.block isOwner).low
    have high := (chained.block isOwner).high
    have bEnd := isEnd isOwner
    unfold Apart at apart ⊢
    omega
  rcases sorted.isPlace p isP with ⟨kind, k, inside, rfl⟩ | ⟨b, page, rfl, isOwner, _⟩ <;>
  rcases sorted.isPlace q isQ with ⟨other, j, jInside, rfl⟩ | ⟨c, place, rfl, cOwner, _⟩
  · rw [usable_slot placed inside, usable_slot placed jInside]
    by_cases sameKind : kind = other
    · subst sameKind
      exact Pool.slot_apart fun same => different (same ▸ rfl)
    · have bounds := slotAt_inside heap inside
      have jBounds := slotAt_inside heap jInside
      have apart := pools_apart placed sameKind
      unfold Apart at apart ⊢
      omega
  · rw [usable_slot placed inside]
    exact ofBlock inside cOwner
  · rw [usable_slot placed jInside]
    exact Or.symm (ofBlock jInside isOwner)
  · have apart := chained.apart isOwner cOwner fun same => different (same ▸ rfl)
    have bEnd := isEnd isOwner
    have cEnd := isEnd cOwner
    unfold Apart at *
    omega

theorem isActive_iff (isOwner : owner b = some page) :
    heap.isActive b = true ↔ b + sizeofHeader ∈ ptrs := by
  have isActive : heap.isActive b = true ↔ (heap.header b).flags = active := by
    unfold Heap.isActive
    rw [decide_eq_true_iff]
    rcases sorted.kept.isState isOwner with isFlags | isFlags | isFlags <;> rw [isFlags] <;> decide
  rw [isActive]
  refine ⟨sorted.isListed isOwner, fun member => ?_⟩
  rcases sorted.isPlace _ member with ⟨kind, k, inside, isSlot⟩ | ⟨c, other, isC, _, isUsed⟩
  · exact absurd isSlot.symm (block_ne_slot sorted.toPlaced isOwner inside)
  · rwa [Nat.add_right_cancel isC]

/-- One of two neighbours is in use. -/
theorem used_of_next (isOwner : owner b = some page) (isNext : heap.next b = some n) :
    b + sizeofHeader ∈ ptrs ∨ n + sizeofHeader ∈ ptrs := by
  have isN := ((sorted.kept.chained.block isOwner).of_next isNext).2.1
  have isUsed : ∀ {c}, owner c = some page → (heap.header c).flags = queued ∨
      c + sizeofHeader ∈ ptrs := by
    intro c isC
    rcases sorted.kept.isState isC with isQueued | isUsed | isNone
    · exact .inl isQueued
    · exact .inr (sorted.isListed isC isUsed)
    · exact absurd isNone (sorted.kept.settled isC List.not_mem_nil).2
  rcases isUsed isOwner with bQueued | bUsed
  · rcases isUsed isN with nQueued | nUsed
    · exact absurd ⟨bQueued, nQueued⟩ (sorted.kept.coalesced isOwner isNext)
    · exact .inr nUsed
  · exact .inl bUsed

/-- A page has a pointer in use. -/
theorem used_of_page (isPage : page ∈ heap.pages) :
    ∃ p ∈ ptrs, page < p ∧ p + usable heap p ≤ page + pageSizeMax := by
  have chained := sorted.kept.chained
  have within : ∀ {b}, owner b = some page →
      page < b + sizeofHeader ∧
        b + sizeofHeader + usable heap (b + sizeofHeader) ≤ page + pageSizeMax := by
    intro b isOwner
    have ok := chained.block isOwner
    have low := ok.low
    have high := ok.high
    have large := ok.large
    rw [usable_block sorted.toPlaced isOwner]
    unfold sizeofHeader
    omega
  have isStart := (chained.start isPage).1
  have small := (sorted.kept.settled isStart List.not_mem_nil).1
  have isNext := (chained.block isStart).next_eq
  rw [if_neg (by omega)] at isNext
  rcases used_of_next sorted isStart isNext with isUsed | isUsed
  · exact ⟨_, isUsed, within isStart⟩
  · exact ⟨_, isUsed, within ((chained.block isStart).of_next isNext).2.1⟩

end InUse

/-! ## What a maintainer can rely on -/

/-- A request that the heap can serve; every other event is met. -/
def Met (state : State) : Event → Prop
  | .malloc s answer => s ≤ 2 ^ 20 - 8 ∧ HasRoom state.heap answer s
  | _ => True

/-- The pages are tiled by blocks that know their neighbours, the free ones are in the bins of
their sizes, and the pointers in use are the slots without a bit and the blocks that are active. -/
structure Sound (heap : Heap) (live : List (Nat × Nat)) : Prop where
  tiled : ∀ page ∈ heap.pages, Extent.Tiles page
    ((heap.blocks page).map fun b => ⟨b, heap.size b⟩) (page + pageSizeMax)
  ahead : ∀ page ∈ heap.pages, ∀ b ∈ heap.blocks page, ∀ n, heap.next b = some n →
    n ∈ heap.blocks page ∧ heap.prev n = some b ∧
      ¬ (heap.isQueued b = true ∧ heap.isQueued n = true)
  behind : ∀ page ∈ heap.pages, ∀ b ∈ heap.blocks page, ∀ p, heap.prev b = some p →
    p ∈ heap.blocks page ∧ heap.next p = some b
  bins : ∃ lists, Segregated 0 (fun b => (heap.node b).qnext) (fun b => (heap.node b).qprev)
    heap.bins lists ∧ ∀ bin b, b ∈ lists bin ↔ (∃ page ∈ heap.pages, b ∈ heap.blocks page) ∧
      heap.isQueued b = true ∧ log2 (heap.size b) = bin
  slots : ∀ kind : Kind, ∀ k < kind.slots,
    (poolOf heap kind).bit k = false ↔ slotAt heap kind k ∈ live.map Prod.fst
  used : ∀ page ∈ heap.pages, ∀ b ∈ heap.blocks page,
    heap.isActive b = true ↔ b + sizeofHeader ∈ live.map Prod.fst
  places : ∀ p ∈ live.map Prod.fst, (∃ kind, IsSlot heap kind p) ∨
    ∃ page ∈ heap.pages, ∃ b ∈ heap.blocks page, p = b + sizeofHeader
  apart : (live.map Prod.fst).Pairwise fun p q => Apart p (usable heap p) q (usable heap q)
  granted : ∀ p s, (p, s) ∈ live → s < 2 ^ 64 - 8 → s ≤ usable heap p

theorem sound_of_inv (inv : Inv state) (granted : Granted state) :
    Sound state.heap state.live := by
  obtain ⟨owner, lists, sorted⟩ := inv
  have placed := sorted.toPlaced
  have chained := sorted.kept.chained
  have isBlock : ∀ {page b}, page ∈ state.heap.pages →
      (b ∈ state.heap.blocks page ↔ owner b = some page) := fun isPage => chained.mem_blocks isPage
  refine ⟨fun page isPage => chained.tiles_blocks isPage, ?_, ?_, ⟨lists,
    sorted.kept.binned.segregated, ?_⟩, fun kind => (sorted.slots kind).bits, ?_, ?_, ?_,
    granted⟩
  · intro page isPage b member n isNext
    have isOwner := (isBlock isPage).mp member
    have isN := ((chained.block isOwner).of_next isNext).2.1
    refine ⟨(isBlock isPage).mpr isN, chained.prev_next isOwner isNext, ?_⟩
    rw [isQueued_of_owner placed isOwner, isQueued_of_owner placed isN]
    exact sorted.kept.coalesced isOwner isNext
  · intro page isPage b member p isPrev
    obtain ⟨isP, _, isNext⟩ := chained.of_prev ((isBlock isPage).mp member) isPrev
    exact ⟨(isBlock isPage).mpr isP, isNext⟩
  · intro bin b
    rw [sorted.kept.binned.listed]
    constructor
    · rintro ⟨⟨page, isOwner⟩, isQueued, isBin⟩
      exact ⟨⟨page, mem_of_owner placed isOwner⟩, (isQueued_of_owner placed isOwner).mpr isQueued,
        isBin⟩
    · rintro ⟨⟨page, isPage, member⟩, isQueued, isBin⟩
      have isOwner := (isBlock isPage).mp member
      exact ⟨⟨page, isOwner⟩, (isQueued_of_owner placed isOwner).mp isQueued, isBin⟩
  · exact fun page isPage b member => isActive_iff sorted ((isBlock isPage).mp member)
  · intro p member
    refine (sorted.isPlace p member).imp id ?_
    rintro ⟨b, page, isB, isOwner, _⟩
    have isPage := chained.isPage isOwner
    exact ⟨page, isPage, b, (isBlock isPage).mpr isOwner, isB⟩
  · exact sorted.nodup.imp_of_mem fun isP isQ different => usable_apart sorted isP isQ different

/-- In every run the heap is sound, and the requests that it can serve and the frees are met. -/
theorem boundaryTags_kept (reachable : machine.Reachable (fun _ _ => True) state) :
    Sound state.heap state.live ∧ machine.Safe Met state := by
  obtain ⟨inv, granted⟩ := reachable_inv reachable
  refine ⟨sound_of_inv inv granted, ?_⟩
  obtain ⟨owner, lists, sorted⟩ := inv
  intro event enabled isMet fault
  cases event with
  | malloc s answer =>
      obtain ⟨p, heap', isCall, _⟩ := malloc_spec sorted enabled.2 isMet.1 isMet.2
      simp [machine, step, isCall] at fault
  | free f =>
      obtain ⟨heap', isCall, _⟩ := fcFree_spec sorted enabled
      simp [machine, step, isCall] at fault
  | writeHeader address header => cases fault
  | writeNode address node => cases fault

/-- The system has given the pools; the first page that it gives is at `2 ^ 32`. -/
def first : State :=
  ⟨⟨fun _ => ⟨0, 0, 0#8⟩, fun _ => ⟨0, 0⟩, fun _ => 0, ⟨2 ^ 30, fun _ => BitVec.allOnes 64, 0⟩,
    ⟨2 ^ 31, fun _ => BitVec.allOnes 64, 0⟩, []⟩, []⟩

theorem first_started : Started first where
  bins _ := rfl
  pages := rfl
  isFree kind _ := by cases kind <;> rfl
  scanPos kind := by cases kind <;> rfl
  nonzero kind := by cases kind <;> decide
  apart := by decide
  live := rfl

theorem first_given : PageGiven first.heap (2 ^ 32) := ⟨by decide, by decide, by decide⟩

/-- A page has been cut for a request of 100 bytes. -/
def hundred : State := (step first (.malloc 100 (2 ^ 32))).getD first

theorem hundred_reachable : machine.Reachable (fun _ _ => True) hundred := by
  obtain ⟨state, result⟩ := Option.isSome_iff_exists.mp
    (show (step first (.malloc 100 (2 ^ 32))).isSome = true by decide +kernel)
  have enabled : machine.Enabled first (.malloc 100 (2 ^ 32)) := ⟨by decide, .inr first_given⟩
  unfold hundred
  rw [result]
  exact .step (.init first_started) enabled trivial result

theorem boundaryTags_kept_hundred : Sound hundred.heap hundred.live :=
  (boundaryTags_kept hundred_reachable).1

/-- A request is met with its bytes, or with null, exactly when it is less than half a page and
there is room for it. -/
theorem malloc_met_iff (reachable : machine.Reachable (fun _ _ => True) state)
    (isAnswer : answer = 0 ∨ PageGiven state.heap answer) (word : s < 2 ^ 64) :
    (∃ p heap', state.heap.fcMalloc answer s = some (p, heap') ∧ (p = 0 ∨ Holds heap' p s)) ↔
      s ≤ 2 ^ 20 - 8 ∧ HasRoom state.heap answer s := by
  obtain ⟨⟨owner, lists, sorted⟩, _⟩ := reachable_inv reachable
  constructor
  · rintro ⟨p, heap', isCall, isHeld⟩
    have small : s ≤ 2 ^ 20 - 8 := by
      by_contra large
      by_cases noWrap : s < 2 ^ 64 - 8
      · cases isCall.symm.trans
          (malloc_none_of_large sorted.toPlaced isAnswer (by omega) noWrap)
      · rcases malloc_wrapped (s := s) sorted isAnswer (by omega) word with isNone |
          ⟨p', heap'', isCall', malloced, nonzero⟩
        · cases isCall.symm.trans isNone
        · cases isCall.symm.trans isCall'
          obtain ⟨_, _, after⟩ := malloced.inv
          rcases isHeld.resolve_left nonzero with ⟨kind, _, fits⟩ |
            ⟨page, isPage, b, member, _, fits, _⟩
          · have bound : kind.width ≤ 64 := by
              cases kind <;> decide
            omega
          · have ok := after.kept.chained.block
              ((after.kept.chained.mem_blocks isPage).mp member)
            have low := ok.low
            have high := ok.high
            unfold sizeofHeader pageSizeMax at *
            omega
    refine ⟨small, ?_⟩
    by_contra noRoom
    cases isCall.symm.trans (malloc_none_of_room small noRoom)
  · rintro ⟨small, room⟩
    obtain ⟨p, heap', isCall, malloced⟩ := malloc_spec sorted isAnswer small room
    exact ⟨p, heap', isCall, malloced.holds⟩

theorem malloc_met_hundred : ∃ p heap', hundred.heap.fcMalloc 0 40 = some (p, heap') ∧
    (p = 0 ∨ Holds heap' p 40) :=
  (malloc_met_iff hundred_reachable (.inl rfl) (by decide)).mpr ⟨by decide, .inl (by decide)⟩

/-- Null is the answer exactly when the slots for the request are all in use. -/
theorem malloc_null_iff (reachable : machine.Reachable (fun _ _ => True) state) :
    (∃ heap', state.heap.fcMalloc answer s = some (0, heap')) ↔ s ≤ 64 ∧
      (∀ k < Kind.slots .of64, slotAt state.heap .of64 k ∈ state.ptrs) ∧
      (s ≤ 32 → ∀ k < Kind.slots .of32, slotAt state.heap .of32 k ∈ state.ptrs) := by
  obtain ⟨⟨owner, lists, sorted⟩, _⟩ := reachable_inv reachable
  unfold Heap.fcMalloc
  by_cases is64 : s ≤ 64
  · have full64 : (state.heap.pool64.alloc 64).1.getD 0 = 0 ↔
        ∀ k < Kind.slots .of64, slotAt state.heap .of64 k ∈ state.ptrs :=
      (sorted.slots .of64).full_iff (by decide)
    have full32 : (state.heap.pool32.alloc 32).1.getD 0 = 0 ↔
        ∀ k < Kind.slots .of32, slotAt state.heap .of32 k ∈ state.ptrs :=
      (sorted.slots .of32).full_iff (by decide)
    rw [if_pos is64, ← full64, ← full32]
    by_cases is32 : s ≤ 32
    · rw [if_pos is32]
      unfold Heap.alloc32
      rcases isAlloc : state.heap.pool32.alloc 32 with ⟨_ | p, pool⟩
      · unfold Heap.alloc64
        simp [is64, is32]
      · have nonzero := (sorted.slots .of32).alloc_nonzero (by decide) isAlloc
        simp [is64, is32, nonzero]
    · rw [if_neg is32]
      unfold Heap.alloc64
      simp [is64, is32]
  · rw [if_neg is64]
    refine iff_of_false ?_ fun full => is64 full.1
    rintro ⟨heap', isCall⟩
    obtain ⟨r, _, isCall⟩ := Option.bind_eq_some_iff.mp isCall
    obtain ⟨⟨h, served⟩, _, isCall⟩ := Option.bind_eq_some_iff.mp isCall
    obtain ⟨_, _, isCall⟩ := Option.bind_eq_some_iff.mp isCall
    cases isCall

theorem malloc_null_hundred : ¬ ∃ heap', hundred.heap.fcMalloc 0 100 = some (0, heap') := by
  rw [malloc_null_iff hundred_reachable]
  exact fun isFull => absurd isFull.1 (by decide)

/-- Every page has a pointer in use, so there are not more pages than pointers. -/
theorem pages_used (reachable : machine.Reachable (fun _ _ => True) state) :
    (∀ page ∈ state.heap.pages, ∃ p ∈ state.ptrs,
      page < p ∧ p + usable state.heap p ≤ page + pageSizeMax) ∧
      state.heap.pages.length ≤ state.live.length := by
  obtain ⟨⟨owner, lists, sorted⟩, _⟩ := reachable_inv reachable
  refine ⟨fun page isPage => used_of_page sorted isPage, ?_⟩
  choose! pointer isUsed isAbove isInside using
    fun page (isPage : page ∈ state.heap.pages) => used_of_page sorted isPage
  have nodup : (state.heap.pages.map pointer).Nodup := by
    refine List.pairwise_map.mpr (sorted.kept.chained.pagesApart.imp_of_mem ?_)
    intro left right isLeft isRight apart same
    have leftAbove := isAbove left isLeft
    have leftInside := isInside left isLeft
    have rightAbove := isAbove right isRight
    have rightInside := isInside right isRight
    unfold Apart at apart
    rw [← same] at rightAbove rightInside
    omega
  have sub : state.heap.pages.map pointer ⊆ state.ptrs := by
    intro p member
    obtain ⟨page, isPage, rfl⟩ := List.mem_map.mp member
    exact isUsed page isPage
  have fewer := (nodup.subperm sub).length_le
  rwa [List.length_map, State.ptrs, List.length_map] at fewer

theorem pages_used_hundred : hundred.heap.pages.length ≤ hundred.live.length :=
  (pages_used hundred_reachable).2

end MallocSurvey.FcMalloc.FcHeap.State
