import MallocSurvey.Winnie1.Steps

/-! # The pool of winnie1 is always tiled -/

namespace MallocSurvey.Winnie1

open Library

/-- A free list from its head to the null pointer. -/
def IsList (pool : Pool) (listNum : Nat) (starts : List Nat) : Prop :=
  pool.freeBlocksLists listNum = starts.headD 0 ∧ Linked id (loadPointer pool.memory) starts

def OnList (pool : Pool) (listNum start : Nat) : Prop :=
  ∃ starts, IsList pool listNum starts ∧ start ∈ starts

/-- The blocks from the system are tiled by blocks whose sizes are powers of two. Each is
in use and on no list, or it is on the list of its size and on no other, and no list
has a block twice. -/
structure PoolTiled (state : State) : Prop where
  tiled : ∃ tiles, Extent.Tiled state.pool.osBlocks tiles ∧
    (∀ tile ∈ tilesOf state.live, tile ∈ tiles) ∧
    ∀ tile ∈ tiles, ∃ log, tile.length = 2 ^ log ∧
      (tile ∈ tilesOf state.live ∧ (∀ listNum, ¬ OnList state.pool listNum tile.start) ∨
        tile ∉ tilesOf state.live ∧ ∀ listNum, OnList state.pool listNum tile.start ↔ listNum = log)
  nodup : (tilesOf state.live).Nodup
  lists : ∀ listNum, ∃ starts, IsList state.pool listNum starts ∧ starts.Nodup
  large : ∀ block ∈ state.live, ∀ listNum, block.listNum = some listNum →
    block.size + sizeofHeader ≤ 2 ^ listNum

/-- A split links blocks that cover the given one exactly, and changes nothing outside
it. -/
def SplitsExactly : Prop :=
  ∀ (pool : Pool) (start first log : Nat) (free : List (FreeBlock Nat)),
    3 ≤ first → first ≤ log → first < maxListsNum → log ≤ maxListsNum → Room start log free →
    Chained pool.memory pool.freeBlocksLists free →
    ∃ blocks memory lists,
      pool.splitBlockAndAddToLists start first log =
        some { pool with memory := memory, freeBlocksLists := lists } ∧
      Chained memory lists (blocks ++ free) ∧
      (∀ block ∈ blocks, block.room = 2 ^ block.bin) ∧
      Extent.Tiles start (blocks.map freeExtent) (start + 2 ^ log) ∧
      ∀ place, place < start ∨ start + 2 ^ log ≤ place → memory place = pool.memory place

theorem splitsExactly : SplitsExactly := by
  intro pool start first log free large bounds inTable top room chained
  obtain ⟨memory, lists, split, splitChained, frame⟩ :=
    splitBlockAndAddToLists_spec large bounds inTable top room chained
  exact ⟨splitBlocks start first log, memory, lists, split, splitChained,
    fun block member => (splitBlocks_ok large bounds inTable top block member).room,
    splitBlocks_tiles bounds start, frame⟩

variable {config : Config}

/-! ## What the invariant says -/

theorem onList_iff {pool : Pool} {free : List (FreeBlock Nat)}
    (chained : Chained pool.memory pool.freeBlocksLists free) {listNum start : Nat} :
    OnList pool listNum start ↔ ∃ block ∈ free, block.bin = listNum ∧ block.start = start := by
  have isList : IsList pool listNum (startsOf listNum free) :=
    ⟨chained.head listNum, chained.linked listNum⟩
  rw [← mem_startsOf]
  constructor
  · rintro ⟨starts, other, member⟩
    rw [← other.2.unique isList.2 (other.1.symm.trans isList.1)]
    exact member
  · intro member
    exact ⟨_, isList, member⟩

theorem free_start_unique {pool : Pool} {live : List Block} {free : List (FreeBlock Nat)}
    (inv : Inv config pool live free) {left right : FreeBlock Nat} (leftFree : left ∈ free)
    (rightFree : right ∈ free) (same : left.start = right.start) : left = right := by
  by_contra different
  have apart := (List.pairwise_append.mp inv.apart).2.1
  have between := Extent.apart_of_map apart leftFree rightFree different
  have leftWord := (inv.freeOk left leftFree).word
  have rightWord := (inv.freeOk right rightFree).word
  unfold Extent.Apart Library.Apart at between
  simp only [freeExtent] at between
  omega

theorem mem_tilesOf {live : List Block} {tile : Extent} :
    tile ∈ tilesOf live ↔ ∃ block ∈ live, block.listNum.isSome ∧ block.whole = tile := by
  unfold tilesOf
  simp only [List.mem_map, List.mem_filter, and_assoc]

theorem Inv.poolTiled {pool : Pool} {live : List Block} {free : List (FreeBlock Nat)}
    (inv : Inv config pool live free) : PoolTiled ⟨pool, live⟩ where
  tiled := by
    refine ⟨_, inv.tiled, fun tile member => List.mem_append_left _ member, ?_⟩
    intro tile member
    rcases List.mem_append.mp member with isLive | isFree
    · obtain ⟨block, blockLive, isSome, rfl⟩ := mem_tilesOf.mp isLive
      obtain ⟨log, isLog⟩ := Option.isSome_iff_exists.mp isSome
      refine ⟨log, ?_, .inl ⟨isLive, ?_⟩⟩
      · unfold Block.whole
        rw [isLog]
      · intro listNum onList
        obtain ⟨other, otherFree, _, sameStart⟩ := (onList_iff inv.chained).mp onList
        have between := inv.live_free_apart blockLive otherFree
        have word := (inv.freeOk other otherFree).word
        have wide := (inv.liveOk block blockLive).wide
        unfold Extent.Apart Library.Apart sizeofHeader at *
        simp only [freeExtent] at between
        omega
    · obtain ⟨block, blockFree, rfl⟩ := List.mem_map.mp isFree
      refine ⟨block.bin, (inv.freeOk block blockFree).room, .inr ⟨?_, ?_⟩⟩
      · intro isTile
        obtain ⟨other, otherLive, _, same⟩ := mem_tilesOf.mp isTile
        have between := inv.live_free_apart otherLive blockFree
        have word := (inv.freeOk block blockFree).word
        rw [same] at between
        unfold Extent.Apart Library.Apart at between
        simp only [freeExtent] at between
        omega
      · intro listNum
        rw [onList_iff inv.chained]
        constructor
        · rintro ⟨other, otherFree, isBin, sameStart⟩
          rw [← isBin, free_start_unique inv otherFree blockFree sameStart]
        · rintro rfl
          exact ⟨block, blockFree, rfl, rfl⟩
  nodup := by
    have osApart := (List.pairwise_append.mp inv.regionsApart).1
    have apart := (List.pairwise_append.mp (inv.tiled.apart osApart)).1
    apply apart.imp_of_mem
    intro left right leftMem _ between
    obtain ⟨block, blockLive, _, rfl⟩ := mem_tilesOf.mp leftMem
    have wide := (inv.liveOk block blockLive).wide
    exact between.ne (by unfold sizeofHeader at wide; omega)
  lists := by
    intro listNum
    refine ⟨startsOf listNum free, ⟨inv.chained.head listNum, inv.chained.linked listNum⟩, ?_⟩
    have apart := (List.pairwise_append.mp inv.apart).2.1
    unfold startsOf
    refine List.pairwise_map.mpr (List.Pairwise.imp_of_mem ?_
      ((List.pairwise_map.mp apart).filter _))
    intro left right leftMem rightMem between same
    have leftWord := (inv.freeOk left (List.mem_filter.mp leftMem).1).word
    have rightWord := (inv.freeOk right (List.mem_filter.mp rightMem).1).word
    unfold Extent.Apart Library.Apart at between
    simp only [freeExtent] at between
    omega
  large := by
    intro block isLive listNum isListNum
    exact ((inv.liveOk block isLive).pooled listNum isListNum).1

/-! ## Every run -/

/-- The invariant holds with some free blocks. -/
def Kept (config : Config) (state : State) : Prop :=
  ∃ free, Inv config state.pool state.live free

theorem step_alloc (state : State) (size answer : Nat) :
    step config state (.alloc size answer) = (do
      let (pointer, pool) ← alloc config state.pool size answer
      if pointer = 0 then return { state with pool := pool }
      else return State.mk pool (⟨pointer, size, source config size⟩ :: state.live)) := rfl

theorem step_free {state : State} {free : List (FreeBlock Nat)} {index : Nat}
    (inv : Inv config state.pool state.live free) (inRange : index < state.live.length) :
    ∃ pool nextFree,
      step config state (.free index) = some ⟨pool, state.live.eraseIdx index⟩ ∧
        Inv config pool (state.live.eraseIdx index) nextFree := by
  obtain ⟨pool, nextFree, call, nextInv, _⟩ :=
    inv.free_spec (List.getElem_cons_eraseIdx_perm inRange).symm
  refine ⟨pool, nextFree, ?_, nextInv⟩
  simp only [step, List.getElem?_eq_getElem inRange, Option.bind_eq_bind, Option.bind_some, call]
  rfl

/-- What a call that returns leads to. -/
theorem step_kept {state next : State} {event : Event} (kept : Kept config state)
    (enabled : Enabled config state event) (result : step config state event = some next) :
    Kept config next := by
  obtain ⟨free, inv⟩ := kept
  cases event with
  | alloc size answer =>
      rw [step_alloc] at result
      rcases inv.alloc_spec enabled.1 enabled.2 with ⟨pointer, pool, call, allocated, _⟩ | ⟨fault, _⟩
      · rw [call] at result
        simp only [Option.bind_eq_bind, Option.bind_some] at result
        cases allocated with
        | refused nextInv =>
            cases result
            exact ⟨_, nextInv⟩
        | served nonzero nextInv =>
            rw [if_neg nonzero] at result
            cases result
            exact ⟨_, nextInv⟩
      · rw [fault] at result
        cases result
  | free index =>
      obtain ⟨pool, nextFree, call, nextInv⟩ := step_free inv enabled
      cases call.symm.trans result
      exact ⟨_, nextInv⟩
  | write place value =>
      cases result
      obtain ⟨block, isLive, above, below⟩ := enabled
      refine ⟨free, inv.fill isLive fun byte outside => ?_⟩
      exact Function.update_of_ne (by omega) _ _

theorem reachable_kept {state : State}
    (reached : (machine config).Reachable (fun _ _ => True) state) : Kept config state := by
  apply Machine.Reachable.invariant _ _ reached
  · rintro state ⟨memory, rfl⟩
    exact ⟨[], inv_initial config memory⟩
  · intro state event next kept enabled _ result
    exact step_kept kept enabled result

/-- With the threshold of the configuration no call faults. -/
theorem Kept.safe {state : State} (kept : Kept config state)
    (used : config.useMallocThreshold = true) :
    (machine config).Safe (fun _ _ => True) state := by
  obtain ⟨free, inv⟩ := kept
  intro event enabled _ fault
  cases event with
  | alloc size answer =>
      rcases inv.alloc_spec enabled.1 enabled.2 with ⟨pointer, pool, call, _⟩ | ⟨_, unused⟩
      · change step config state (.alloc size answer) = none at fault
        rw [step_alloc, call] at fault
        simp only [Option.bind_eq_bind, Option.bind_some] at fault
        split at fault <;> cases fault
      · rw [used] at unused
        cases unused
  | free index =>
      obtain ⟨_, _, call, _⟩ := step_free inv enabled
      cases call.symm.trans fault
  | write place value => cases fault

/-- The pool is tiled in every reachable state, whichever way the threshold is
configured; with the threshold every call returns. -/
theorem pool_tiled {state : State}
    (reached : (machine config).Reachable (fun _ _ => True) state) :
    PoolTiled state ∧ SplitsExactly ∧
      (config.useMallocThreshold = true → (machine config).Safe (fun _ _ => True) state) := by
  have kept := reachable_kept reached
  refine ⟨?_, splitsExactly, kept.safe⟩
  obtain ⟨free, inv⟩ := kept
  exact inv.poolTiled

/-- A block of a hundred bytes at the start of the second megabyte. -/
theorem pool_tiled_oneBlock :
    ∃ state, (machine ⟨true⟩).Reachable (fun _ _ => True) state ∧
      (∃ block ∈ state.live, block.size = 100 ∧ block.listNum = some 7) ∧
      PoolTiled state ∧ SplitsExactly ∧
      (true = true → (machine ⟨true⟩).Safe (fun _ _ => True) state) := by
  have start : (machine ⟨true⟩).Reachable (fun _ _ => True) ⟨.initial fun _ => 0, []⟩ :=
    .init ⟨fun _ => 0, rfl⟩
  obtain ⟨next, stepped, isLive⟩ : ∃ next,
      step ⟨true⟩ ⟨.initial fun _ => 0, []⟩ (.alloc 100 (2 ^ 20)) = some next ∧
        next.live.map Block.listNum = [some 7] ∧ next.live.map Block.size = [100] := by
    refine ⟨_, rfl, ?_, ?_⟩
    · decide +kernel
    · decide +kernel
  have enabled : (machine ⟨true⟩).Enabled ⟨.initial fun _ => 0, []⟩ (.alloc 100 (2 ^ 20)) :=
    ⟨by decide, .inr ⟨by decide +kernel, nofun⟩⟩
  have reached := start.step enabled trivial stepped
  refine ⟨next, reached, ?_, pool_tiled reached⟩
  obtain ⟨block, isBlock⟩ : ∃ block, next.live = [block] := by
    have single := congrArg List.length isLive.1
    rw [List.length_map] at single
    exact List.length_eq_one_iff.mp single
  rw [isBlock] at isLive ⊢
  exact ⟨block, List.mem_singleton_self block, List.head_eq_of_cons_eq isLive.2,
    List.head_eq_of_cons_eq isLive.1⟩

end MallocSurvey.Winnie1
