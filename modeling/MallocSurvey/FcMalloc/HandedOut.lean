import MallocSurvey.FcMalloc.Collecting

/-! # Blocks are handed out once -/

namespace MallocSurvey.FcMalloc.Malloc2

open Library

/-- Blocks do not overlap, those in use are large enough, and freed blocks, and no others,
have one place each. -/
structure Kept (state : State) : Prop where
  apart : (state.live.map Block.pointer ++ state.system.freed).Pairwise fun left right =>
    (extentOf state.system.header left).Apart (extentOf state.system.header right)
  inPage : ∀ block ∈ state.live, block.pointer ≠ 0 ∧ ∃ page ∈ state.system.pages,
    Extent.Inside ⟨block.pointer, (state.system.headerOf block.pointer).usable⟩ page
  enough : ∀ block ∈ state.live, block.size ≤ (state.system.headerOf block.pointer).usable
  onePlace : ∀ c ∈ state.system.freed, ∃! place, state.system.slots place = some c
  onlyFreed : ∀ place c, state.system.slots place = some c →
    c ∈ state.system.freed ∧ c ∉ state.live.map Block.pointer
  binned : ∀ bin position c, state.system.slots (.cache bin position) = some c →
    (state.system.headerOf c).calcBinNum = bin
  bounded : state.system.Counters

/-- The event overruns no ring: a freed block finds room in its ring, no blocks are claimed
from a recycle bin, and a block from the bin of the request is large enough. -/
def Fits (state : State) : Event → Prop
  | .malloc2 size _ =>
      match state.system.cachedBin (System.roundUp size) with
      | some i => i = getBinNum (System.roundUp size) →
          size ≤ (state.system.headerOf (state.system.thread.firstCached i)).usable
      | none => state.system.available (getBinNum (System.roundUp size)) ≤ 16 ∧
          (state.system.Exhausted (System.roundUp size) →
            state.system.RoomFor (state.system.thread.nextBlock + sizeofHeader))
  | .free2 index => ∀ block, state.live[index]? = some block → state.system.RoomFor block.pointer
  | .collect => True

/-- The system has no page, or a recycle bin is full. -/
def Stuck (state : State) : Event → Prop
  | .malloc2 _ answer => answer = 0
  | .free2 _ => False
  | .collect => ∃ bin, ∀ slot < recycleSlots, (state.system.bins bin).freeBin slot ≠ 0

instance (state : State) (event : Event) : Decidable (machine.Enabled state event) :=
  inferInstanceAs (Decidable (Enabled state event))

variable {state next : State} {event : Event}

/-- What holds between the events. -/
def Held (state : State) : Prop :=
  Inv state.system state.live [state.system.thread.nextBlock + sizeofHeader]

theorem Held.kept (held : Held state) : Kept state where
  apart := by
    have apart := held.layout.apart
    rw [List.append_assoc] at apart
    exact List.pairwise_map.mp (List.pairwise_cons.mp apart).2
  inPage := by
    intro block isLive
    have ok := held.layout.block block.pointer
      (List.mem_append_left _ (List.mem_append_right _ (List.mem_map_of_mem isLive)))
    obtain ⟨page, isPage, inside⟩ := ok.inside
    refine ⟨ok.ne_zero, page, isPage, ?_⟩
    have sized := ok.sized
    have above := ok.above
    unfold System.headerOf BlockHeader.usable
    unfold extentOf Extent.Inside at *
    dsimp only at *
    omega
  enough := held.enough
  onePlace := fun c isFreed => held.placed.existsUnique isFreed
  onlyFreed := by
    intro place c isPlace
    have isFreed : c ∈ state.system.freed := (held.placed.held_iff c).mpr ⟨place, isPlace⟩
    refine ⟨isFreed, fun isLive => ?_⟩
    exact (List.nodup_append.mp held.nodup).2.2 c (List.mem_append_right _ isLive) c isFreed rfl
  binned := held.binned
  bounded := held.counters

theorem held_started (started : Started state.system) (empty : state.live = []) : Held state := by
  obtain ⟨system, live⟩ := state
  cases empty
  dsimp only at started
  obtain ⟨counters, caches, bins, ⟨nonzero, isPage, isHeader⟩, isIdle, isFreed⟩ := started
  have isUnread : system.unread = 0 := by
    unfold System.unread
    rw [isIdle]
    exact counters.1
  have empty : ∀ place, system.slots place = none := by
    intro place
    cases place with
    | cache bin position =>
        refine if_neg fun inside => ?_
        rw [(caches bin).2] at inside
        exact Nat.not_lt_zero _ inside.2
    | garbage position =>
        refine if_neg fun inside => ?_
        rw [counters.2.2.1] at inside
        exact Nat.not_lt_zero _ inside.2
    | recycle bin slot =>
        apply recycleAt_empty
        rw [bins bin]
  have isBlock : system.thread.nextBlock + sizeofHeader - sizeofHeader =
      system.thread.nextBlock := Nat.add_sub_cancel ..
  refine ⟨⟨?_, ?_⟩, ?_, (fun _ member => nomatch member), ⟨?_, ?_⟩, ?_,
    ⟨?_, ?_, ?_, ?_, ?_⟩⟩
  · intro c member
    rw [isFreed, List.map_nil, List.append_nil, List.append_nil, List.mem_singleton] at member
    subst member
    have above : sizeofHeader < system.thread.nextBlock + sizeofHeader :=
      Nat.lt_add_of_pos_left (Nat.pos_of_ne_zero nonzero)
    refine ⟨above, ?_, ?_, ⟨system.thread.nextBlock, pageSize⟩, ?_, ?_⟩
    · rw [isBlock, isHeader]
      decide
    · rw [isBlock, isHeader]
    · rw [isPage]
      exact List.mem_cons_self
    · unfold extentOf
      rw [isBlock, isHeader]
      exact ⟨Nat.le_refl _, Nat.le_refl _⟩
  · rw [isFreed]
    exact List.pairwise_singleton ..
  · intro c member
    rw [isHeader]
    exact ⟨List.mem_singleton.mp member, rfl, rfl⟩
  · intro left right c isLeft
    rw [empty] at isLeft
    cases isLeft
  · intro c
    rw [isFreed]
    refine iff_of_false List.not_mem_nil ?_
    rintro ⟨place, isPlace⟩
    rw [empty] at isPlace
    cases isPlace
  · intro bin position c isCached
    rw [empty] at isCached
    cases isCached
  · intro bin
    rw [(caches bin).1, (caches bin).2]
    exact ⟨Nat.le_refl _, Nat.zero_le _⟩
  · rw [isUnread]
    exact Nat.zero_le _
  · intro p e isPass
    rw [isIdle] at isPass
    cases isPass
  · rw [counters.2.1]
    exact Nat.zero_le _
  · rw [counters.2.2.1]
    exact Nat.zero_le _

/-! ## Events -/

/-- `alloc` hands out a block that holds the size. -/
theorem Held.alloc (held : Held state) {size answer : Nat}
    (enabled : Enabled state (.malloc2 size answer)) (fits : Fits state (.malloc2 size answer)) :
    answer = 0 ∧ state.system.alloc size answer = none ∨
      ∃ c system, state.system.alloc size answer = some (c, system) ∧
        Held ⟨system, ⟨c, size⟩ :: state.live⟩ := by
  obtain ⟨positive, inPage, answers⟩ := enabled
  obtain ⟨atLeast, granular⟩ := roundUp_spec size
  unfold Fits at fits
  dsimp only at fits
  unfold System.alloc
  dsimp only
  generalize System.roundUp size = s at *
  rw [if_neg (Nat.not_le_of_lt inPage)]
  cases isCached : state.system.cachedBin s with
  | some i =>
      rw [isCached] at fits
      dsimp only at fits ⊢
      obtain ⟨above, below, nonempty⟩ := findCached_spec isCached
      have enough : size ≤ (state.system.headerOf (state.system.thread.firstCached i)).usable := by
        by_cases same : i = getBinNum s
        · exact fits same
        · have isFirst : state.system.slots (.cache i (state.system.thread.cachePos i)) =
              some (state.system.thread.firstCached i) := ringAt_first nonempty
          have isBin := held.binned i _ _ isFirst
          refine Nat.le_trans atLeast (usable_of_binNum granular (by omega) ?_)
          rw [isBin]
          omega
      exact .inr ⟨_, _, rfl, Inv.takeCached held nonempty enough⟩
  | none =>
      rw [isCached] at fits
      obtain ⟨few, room⟩ := fits
      have small : s < 2 ^ 22 := Nat.lt_of_le_of_lt (Nat.le_add_right _ _) inPage
      have log := (Nat.log2_lt (k := 22) (show s ≠ 0 by omega)).mpr small
      have hasBin : ¬ binCount ≤ getBinNum s := by
        unfold binCount getBinNum
        omega
      dsimp only
      rw [if_neg hasBin, if_neg (Nat.not_lt_of_le few)]
      unfold System.allocChunk
      by_cases exhausted : state.system.Exhausted s
      · rw [if_pos exhausted]
        obtain ⟨_, _, aligned⟩ := held.rest _ List.mem_cons_self
        have isRest : (state.system.header state.system.thread.nextBlock).pagePos ≠ pageSize := by
          have bounds := (held.layout.block _ List.mem_cons_self).calcSize_bounds
          have bounded := (held.layout.block _ List.mem_cons_self).bounded
          rw [Nat.add_sub_cancel] at bounds bounded
          unfold BlockHeader.calcSize at bounds
          omega
        rw [if_pos isRest]
        have freed : Inv (state.system.free (state.system.thread.nextBlock + sizeofHeader))
            state.live [] :=
          Inv.free held (room exhausted) (List.Perm.refl _) (fun _ member => nomatch member)
            fun _ isLive => isLive
        by_cases refused : answer = 0
        · refine .inl ⟨refused, ?_⟩
          unfold System.allocateBlockPage
          dsimp only
          rw [if_pos refused]
          rfl
        · obtain ⟨paged, isPaged, inv, isNext, isHeader⟩ :=
            freed.allocateBlockPage refused answers
          subst isNext
          have roomy : ¬ paged.Exhausted s := by
            unfold System.Exhausted
            rw [isHeader]
            dsimp only
            omega
          have carved := (inv.carve granular roomy atLeast).2
          refine .inr ⟨_, _, ?_, carved⟩
          dsimp only
          rw [isPaged]
          rfl
      · rw [if_neg exhausted]
        have carved := (Inv.carve held granular exhausted atLeast).2
        exact .inr ⟨_, _, rfl, carved⟩

/-- `free` takes a block that is in use. -/
theorem Held.free (held : Held state) {index : Nat} {block : Block}
    (isBlock : state.live[index]? = some block) (room : state.system.RoomFor block.pointer) :
    Held ⟨state.system.free block.pointer, state.live.eraseIdx index⟩ := by
  obtain ⟨inRange, isElem⟩ := List.getElem?_eq_some_iff.mp isBlock
  have perm := List.getElem_cons_eraseIdx_perm inRange
  rw [isElem] at perm
  unfold Held
  rw [free_nextBlock]
  refine Inv.free held room ?_ (fun _ member => member) fun other => List.mem_of_mem_eraseIdx
  exact ((perm.map Block.pointer).symm.append_left _).trans List.perm_middle

theorem step_malloc2 (size answer : Nat) : step state (.malloc2 size answer) = (do
    let (c, system) ← state.system.alloc size answer
    return State.mk system (⟨c, size⟩ :: state.live)) := rfl

theorem step_free2 (index : Nat) : step state (.free2 index) = state.live[index]?.bind fun block =>
    some (State.mk (state.system.free block.pointer) (state.live.eraseIdx index)) := rfl

theorem step_collect : step state .collect = state.system.collect.bind fun system =>
    some { state with system := system } := rfl

theorem step_held (held : Held state) (enabled : Enabled state event) (fits : Fits state event)
    (result : step state event = some next) : Held next := by
  cases event with
  | malloc2 size answer =>
      rw [step_malloc2] at result
      rcases held.alloc enabled fits with ⟨_, failed⟩ | ⟨c, system, call, served⟩
      · rw [failed] at result
        cases result
      · rw [call] at result
        cases result
        exact served
  | free2 index =>
      rw [step_free2, Option.bind_eq_some_iff] at result
      obtain ⟨block, isBlock, isNext⟩ := result
      cases isNext
      exact held.free isBlock (fits block isBlock)
  | collect =>
      rw [step_collect, Option.bind_eq_some_iff] at result
      obtain ⟨system, call, isNext⟩ := result
      cases isNext
      obtain ⟨inv, sameBlock⟩ := Inv.collect held call
      unfold Held
      rw [sameBlock]
      exact inv

theorem Held.fails (held : Held state) (enabled : Enabled state event) (fits : Fits state event)
    (fault : step state event = none) : Stuck state event := by
  cases event with
  | malloc2 size answer =>
      rw [step_malloc2] at fault
      rcases held.alloc enabled fits with ⟨refused, _⟩ | ⟨c, system, call, _⟩
      · exact refused
      · rw [call] at fault
        cases fault
  | free2 index =>
      have inRange : index < state.live.length := enabled
      rw [step_free2, List.getElem?_eq_getElem inRange] at fault
      cases fault
  | collect =>
      rw [step_collect, Option.bind_eq_none_iff] at fault
      apply Inv.collect_none held
      cases call : state.system.collect with
      | none => rfl
      | some system => cases fault system call

/-- The thread has started with the page at 65536. -/
def start : State where
  system :=
    { header := fun _ => ⟨0, 0, pageSize, 0⟩
      thread :=
        { gcBegin := 0
          gcReadEnd := 0
          gcReadEndBuffer := 0
          gcReadEndLastWrite := 0
          cachePos := fun _ => 0
          cacheEnd := fun _ => 0
          nextBlock := 65536
          garbageBin := fun _ => 0
          cache := fun _ _ => 0 }
      bins := fun _ => ⟨0, 0, 0, fun _ => 0⟩
      collecting := none
      pages := [⟨65536, pageSize⟩]
      freed := [] }
  live := []

theorem start_reachable {allowed : State → Event → Prop} : machine.Reachable allowed start :=
  .init ⟨⟨⟨rfl, rfl, rfl, rfl⟩, fun _ => ⟨rfl, rfl⟩, fun _ => rfl, ⟨by decide, rfl, rfl⟩, rfl, rfl⟩,
    rfl⟩

/-- In every run whose events overrun no ring the blocks are kept, and an event fails only
when there is no page or the garbage collector is stuck. -/
theorem blocks_kept (reached : machine.Reachable Fits state) :
    Kept state ∧
      ∀ event, Enabled state event → Fits state event → step state event = none →
        Stuck state event := by
  have held : Held state := by
    apply Machine.Reachable.invariant _ _ reached
    · rintro state ⟨started, empty⟩
      exact held_started started empty
    · exact fun state event next held enabled fits result => step_held held enabled fits result
  exact ⟨held.kept, fun event enabled fits fault => held.fails enabled fits fault⟩

/-- The first block of a thread. -/
theorem blocks_kept_malloc2 : ∃ state, step start (.malloc2 100 0) = some state ∧ Kept state := by
  have enabled : Enabled start (.malloc2 100 0) := ⟨by decide, by decide, .inl rfl⟩
  have fits : Fits start (.malloc2 100 0) := ⟨by decide, fun exhausted => absurd exhausted (by decide)⟩
  cases result : step start (.malloc2 100 0) with
  | none =>
      have served : (step start (.malloc2 100 0)).isSome := by decide
      rw [result] at served
      cases served
  | some state =>
      have reached := @Machine.Reachable.step _ _ machine Fits _ _ (.malloc2 100 0) start_reachable
        enabled fits result
      exact ⟨state, rfl, (blocks_kept reached).1⟩

/-- A block of 128 bytes is handed out for 192: both sizes have one bin. -/
theorem block_too_small : ∃ state, machine.Reachable (fun _ _ => True) state ∧ ¬ Kept state := by
  have sizes : (machine.run start [.malloc2 128 0, .free2 0, .malloc2 192 0]).map (fun state =>
      state.live.map fun block =>
        (block.size, (state.system.headerOf block.pointer).usable)) = some [(192, 128)] := by
    decide +kernel
  obtain ⟨state, result, isLive⟩ := Option.map_eq_some_iff.mp sizes
  refine ⟨state, start_reachable.leads (Machine.leads_of_run result), fun kept => ?_⟩
  have member : (192, 128) ∈ state.live.map fun block =>
      (block.size, (state.system.headerOf block.pointer).usable) := by
    rw [isLive]
    exact List.mem_cons_self
  obtain ⟨block, isBlock, equal⟩ := List.mem_map.mp member
  have enough := kept.enough block isBlock
  rw [(Prod.mk.inj equal).1, (Prod.mk.inj equal).2] at enough
  exact absurd enough (by decide)

end MallocSurvey.FcMalloc.Malloc2
