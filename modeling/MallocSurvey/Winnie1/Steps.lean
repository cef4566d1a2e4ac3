import MallocSurvey.Winnie1.Split

/-! # The calls keep the pool tiled -/

namespace MallocSurvey.Winnie1

open Library

namespace Inv

variable {config : Config} {pool : Pool} {live : List Block} {free : List (FreeBlock Nat)}

/-! ## Taking the first block of a list -/

theorem free_apart (inv : Inv config pool live free) {block : FreeBlock Nat}
    {rest : List (FreeBlock Nat)} (perm : free.Perm (block :: rest)) {other : FreeBlock Nat}
    (member : other ∈ rest) : (freeExtent block).Apart (freeExtent other) := by
  have apart := (List.pairwise_append.mp inv.apart).2.1
  rw [Extent.pairwise_perm (perm.map freeExtent)] at apart
  exact (List.pairwise_cons.mp apart).1 _ (List.mem_map_of_mem member)

/-- The words of the other free blocks lie outside a free block. -/
theorem free_word_apart (inv : Inv config pool live free) {block : FreeBlock Nat}
    {rest : List (FreeBlock Nat)} (perm : free.Perm (block :: rest)) {other : FreeBlock Nat}
    (member : other ∈ rest) : Library.Apart block.start block.room other.start 8 := by
  have apart := inv.free_apart perm member
  have isFree : other ∈ free := perm.mem_iff.mpr (List.mem_cons_of_mem _ member)
  have blockFree : block ∈ free := perm.mem_iff.mpr List.mem_cons_self
  have word := (inv.freeOk other isFree).word
  have blockWord := (inv.freeOk block blockFree).word
  unfold Extent.Apart Library.Apart at *
  simp only [freeExtent] at apart
  omega

/-- The headers of the blocks in use lie outside a free block. -/
theorem header_outside (inv : Inv config pool live free) {block : FreeBlock Nat}
    (isFree : block ∈ free) {other : Block} (isLive : other ∈ live) :
    other.header + 1 < block.start ∨ block.start + block.room ≤ other.header := by
  have apart := inv.live_free_apart isLive isFree
  have wide := (inv.liveOk other isLive).wide
  have word := (inv.freeOk block isFree).word
  have starts := whole_start other
  unfold Extent.Apart Library.Apart sizeofHeader at *
  simp only [freeExtent] at apart
  omega

theorem detachFirstBlock_spec (inv : Inv config pool live free) {listNum : Nat}
    (nonempty : pool.freeBlocksLists listNum ≠ 0) :
    ∃ block memory lists,
      firstOf listNum free = some block ∧
      pool.detachFirstBlock listNum =
        some (block.start, { pool with memory := memory, freeBlocksLists := lists }) ∧
      Chained memory lists (dropFirst listNum free) ∧
      memory block.start = 0 ∧ memory (block.start + 1) = UInt8.ofNat listNum ∧
      ∀ place, place < block.start ∨ block.start + 2 ≤ place →
        memory place = pool.memory place := by
  obtain ⟨block, found, isHead⟩ := inv.chained.firstOf_head nonempty
  have isFree := (firstOf_mem found).1
  have popped := inv.chained.pop found
  rw [← isHead] at nonempty popped
  have word := (inv.freeOk block isFree).word
  refine ⟨block, Function.update (Function.update pool.memory (block.start + 1)
    (UInt8.ofNat listNum)) block.start 0, _, found, ?_, popped.congr ?_, ?_, ?_, ?_⟩
  · unfold Pool.detachFirstBlock
    rw [← isHead]
    exact if_neg nonempty
  · intro other member
    apply loadPointer_congr
    intro place above below
    have apart := inv.free_word_apart (dropFirst_perm found) member
    unfold Library.Apart at apart
    rw [Function.update_of_ne (by omega), Function.update_of_ne (by omega)]
  · exact Function.update_self ..
  · rw [Function.update_of_ne (by omega), Function.update_self]
  · intro place outside
    rw [Function.update_of_ne (by omega), Function.update_of_ne (by omega)]

/-! ## The tiles change -/

/-- A free block is replaced by blocks that tile it. -/
theorem refill (inv : Inv config pool live free) {block : FreeBlock Nat}
    {rest parts : List (FreeBlock Nat)} (perm : free.Perm (block :: rest)) {memory : Memory}
    {lists : Nat → Nat} (chained : Chained memory lists (parts ++ rest))
    (frame : ∀ place, place < block.start ∨ block.start + block.room ≤ place →
      memory place = pool.memory place)
    (cut : Extent.Tiles block.start (parts.map freeExtent) (block.start + block.room))
    (ok : ∀ part ∈ parts, FreeOk part) :
    Inv config { pool with memory := memory, freeBlocksLists := lists } live (parts ++ rest) where
  chained := chained
  regionsApart := inv.regionsApart
  region := inv.region
  tiled := by
    have moved : (tilesOf live ++ free.map freeExtent).Perm
        (freeExtent block :: (tilesOf live ++ rest.map freeExtent)) :=
      ((perm.map freeExtent).append_left _).trans List.perm_middle
    have replaced := (inv.tiled.perm moved).replace cut
    rw [List.map_append]
    exact replaced.perm (List.perm_append_comm_assoc _ _ _)
  mallocs := inv.mallocs
  freeOk := by
    intro part member
    rcases List.mem_append.mp member with isPart | isRest
    · exact ok part isPart
    · exact inv.freeOk part (perm.mem_iff.mpr (List.mem_cons_of_mem _ isRest))
  liveOk := by
    intro other isLive
    have outside := inv.header_outside (perm.mem_iff.mpr List.mem_cons_self) isLive
    exact (inv.liveOk other isLive).congr (frame _ (by omega)) (frame _ (by omega))

/-- Memory that the system has just returned. -/
structure Fresh (pool : Pool) (region : Extent) : Prop where
  nonzero : 0 < region.start
  nonempty : 0 < region.length
  bound : region.start + region.length ≤ 2 ^ 64
  apart : ∀ other ∈ pool.osBlocks ++ pool.malloced, region.Apart other

theorem Fresh.of_answers {size answer : Nat} (answers : Answers pool size answer)
    (nonzero : answer ≠ 0) (nonempty : 0 < size) : Fresh pool ⟨answer, size⟩ := by
  rcases answers with isNull | ⟨bound, apart⟩
  · exact absurd isNull nonzero
  · exact ⟨Nat.pos_of_ne_zero nonzero, nonempty, bound, apart⟩

theorem Fresh.header_outside {region : Extent} (fresh : Fresh pool region)
    (inv : Inv config pool live free) {block : Block} (isLive : block ∈ live) :
    block.header + 1 < region.start ∨ region.start + region.length ≤ block.header := by
  obtain ⟨other, isRegion, inside⟩ := inv.whole_region isLive
  have apart := fresh.apart other isRegion
  have wide := (inv.liveOk block isLive).wide
  have starts := whole_start block
  have nonempty := fresh.nonempty
  unfold Extent.Apart Library.Apart Extent.Inside sizeofHeader at *
  omega

theorem Fresh.free_apart {region : Extent} (fresh : Fresh pool region)
    (inv : Inv config pool live free) {block : FreeBlock Nat} (isFree : block ∈ free) :
    Library.Apart region.start region.length block.start 8 := by
  obtain ⟨other, isRegion, inside⟩ := inv.free_region isFree
  have apart := fresh.apart other (List.mem_append_left _ isRegion)
  have word := (inv.freeOk block isFree).word
  have nonempty := fresh.nonempty
  unfold Extent.Apart Library.Apart Extent.Inside at *
  simp only [freeExtent] at inside
  omega

/-- The bytes of the blocks in use stay. -/
def Undisturbed (live : List Block) (memory other : Memory) : Prop :=
  ∀ block ∈ live, ∀ place, block.whole.start ≤ place →
    place < block.whole.start + block.whole.length → other place = memory place

theorem Undisturbed.trans {memory middle other : Memory}
    (left : Undisturbed live memory middle) (right : Undisturbed live middle other) :
    Undisturbed live memory other := fun block isLive place low high =>
  (right block isLive place low high).trans (left block isLive place low high)

/-- Writes to a free block. -/
theorem undisturbed_of_free (inv : Inv config pool live free) {block : FreeBlock Nat}
    (isFree : block ∈ free) {memory : Memory}
    (frame : ∀ place, place < block.start ∨ block.start + block.room ≤ place →
      memory place = pool.memory place) : Undisturbed live pool.memory memory := by
  intro other isLive place low high
  have apart := inv.live_free_apart isLive isFree
  have word := (inv.freeOk block isFree).word
  unfold Extent.Apart Library.Apart at apart
  simp only [freeExtent] at apart
  exact frame place (by omega)

/-- Writes to new memory. -/
theorem Fresh.undisturbed {region : Extent} (fresh : Fresh pool region)
    (inv : Inv config pool live free) {memory : Memory}
    (frame : ∀ place, place < region.start ∨ region.start + region.length ≤ place →
      memory place = pool.memory place) : Undisturbed live pool.memory memory := by
  intro block isLive place low high
  obtain ⟨other, isRegion, inside⟩ := inv.whole_region isLive
  have apart := fresh.apart other isRegion
  have nonempty := fresh.nonempty
  unfold Extent.Apart Library.Apart Extent.Inside at *
  exact frame place (by omega)

/-- A new block from the system is tiled by free blocks. -/
theorem extend (inv : Inv config pool live free) {region : Extent} (fresh : Fresh pool region)
    {parts : List (FreeBlock Nat)} {memory : Memory} {lists : Nat → Nat}
    (chained : Chained memory lists (parts ++ free))
    (frame : ∀ place, place < region.start ∨ region.start + region.length ≤ place →
      memory place = pool.memory place)
    (cut : Extent.Tiles region.start (parts.map freeExtent) (region.start + region.length))
    (ok : ∀ part ∈ parts, FreeOk part) :
    Inv config
      { pool with
        osBlocks := region :: pool.osBlocks, memory := memory, freeBlocksLists := lists }
      live (parts ++ free) where
  chained := chained
  regionsApart := List.pairwise_cons.mpr ⟨fresh.apart, inv.regionsApart⟩
  region := by
    intro other member
    rcases List.mem_cons.mp member with isNew | member
    · exact isNew ▸ ⟨fresh.nonzero, fresh.nonempty, fresh.bound⟩
    · exact inv.region other member
  tiled := by
    rw [List.map_append]
    exact (inv.tiled.cons cut).perm (List.perm_append_comm_assoc _ _ _)
  mallocs := inv.mallocs
  freeOk := by
    intro part member
    rcases List.mem_append.mp member with isPart | isFree
    · exact ok part isPart
    · exact inv.freeOk part isFree
  liveOk := by
    intro other isLive
    have outside := fresh.header_outside inv isLive
    exact (inv.liveOk other isLive).congr (frame _ (by omega)) (frame _ (by omega))

/-- The first block of a list is handed out. -/
theorem occupy (inv : Inv config pool live free) {listNum size : Nat}
    (fits : size + sizeofHeader ≤ 2 ^ listNum) {block : FreeBlock Nat}
    (found : firstOf listNum free = some block) {memory : Memory} {lists : Nat → Nat}
    (chained : Chained memory lists (dropFirst listNum free))
    (isMalloced : memory block.start = 0)
    (isListNum : memory (block.start + 1) = UInt8.ofNat listNum)
    (frame : ∀ place, place < block.start ∨ block.start + 2 ≤ place →
      memory place = pool.memory place) :
    Inv config { pool with memory := memory, freeBlocksLists := lists }
      (⟨block.start + sizeofHeader, size, some listNum⟩ :: live) (dropFirst listNum free) := by
  obtain ⟨isFree, sameBin⟩ := firstOf_mem found
  have ok := inv.freeOk block isFree
  have perm := dropFirst_perm found
  have nonzero := inv.chained.start_ne_zero isFree
  exact {
    chained := chained
    regionsApart := inv.regionsApart
    region := inv.region
    tiled := by
      have moved : (tilesOf live ++ free.map freeExtent).Perm
          (freeExtent block :: (tilesOf live ++ (dropFirst listNum free).map freeExtent)) :=
        ((perm.map freeExtent).append_left _).trans List.perm_middle
      have sameExtent : freeExtent block =
          Block.whole ⟨block.start + sizeofHeader, size, some listNum⟩ := by
        unfold freeExtent Block.whole Block.header
        rw [ok.room, sameBin]
        rfl
      rw [tilesOf_pooled rfl, ← sameExtent]
      exact inv.tiled.perm moved
    mallocs := by
      rw [mallocsOf_pooled rfl]
      exact inv.mallocs
    freeOk := fun other member =>
      inv.freeOk other (perm.mem_iff.mpr (List.mem_cons_of_mem _ member))
    liveOk := by
      intro other member
      rcases List.mem_cons.mp member with isNew | isLive
      · subst isNew
        refine ⟨Nat.lt_add_of_pos_left (Nat.pos_of_ne_zero nonzero), ?_, fun isNone => by cases isNone⟩
        intro listNum' isSome
        cases isSome
        exact ⟨fits, sameBin ▸ ok.large, sameBin ▸ ok.inTable, isMalloced, isListNum⟩
      · have outside := inv.header_outside isFree isLive
        have word := ok.word
        exact (inv.liveOk other isLive).congr (frame _ (by omega)) (frame _ (by omega)) }

/-- A block from `malloc` is handed out. -/
theorem occupyMalloc (inv : Inv config pool live free) {size answer : Nat}
    (fresh : Fresh pool ⟨answer, size + sizeofHeader⟩)
    (used : config.useMallocThreshold = true) :
    Inv config
      { pool with
        memory := Function.update pool.memory answer 1
        malloced := ⟨answer, size + sizeofHeader⟩ :: pool.malloced }
      (⟨answer + sizeofHeader, size, none⟩ :: live) free where
  chained := by
    apply inv.chained.congr
    intro block isFree
    apply loadPointer_congr
    intro place above below
    have apart := fresh.free_apart inv isFree
    unfold Library.Apart sizeofHeader at apart
    exact Function.update_of_ne (by dsimp only at apart; omega) _ _
  regionsApart := by
    rw [Extent.pairwise_perm List.perm_middle]
    exact List.pairwise_cons.mpr ⟨fresh.apart, inv.regionsApart⟩
  region := by
    intro other member
    rcases List.mem_cons.mp (List.perm_middle.mem_iff.mp member) with isNew | member
    · exact isNew ▸ ⟨fresh.nonzero, fresh.nonempty, fresh.bound⟩
    · exact inv.region other member
  tiled := by
    rw [tilesOf_malloced rfl]
    exact inv.tiled
  mallocs := by
    rw [mallocsOf_malloced rfl]
    exact inv.mallocs.cons _
  freeOk := inv.freeOk
  liveOk := by
    intro other member
    rcases List.mem_cons.mp member with isNew | isLive
    · subst isNew
      refine ⟨Nat.lt_add_of_pos_left fresh.nonzero, ?_, ?_⟩
      · intro listNum isSome
        cases isSome
      intro _
      refine ⟨used, ?_⟩
      change Function.update pool.memory answer 1 answer ≠ 0
      rw [Function.update_self]
      decide
    · have outside := fresh.header_outside inv isLive
      have nonempty := fresh.nonempty
      dsimp only at outside nonempty
      apply (inv.liveOk other isLive).congr
      · exact Function.update_of_ne (by omega) _ _
      · exact Function.update_of_ne (by omega) _ _

/-- A block goes back on its list. -/
theorem release (inv : Inv config pool live free) {block : Block} {rest : List Block}
    (perm : live.Perm (block :: rest)) {listNum : Nat} (isListNum : block.listNum = some listNum)
    {memory : Memory} {lists : Nat → Nat}
    (chained : Chained memory lists (⟨listNum, block.header, 2 ^ listNum⟩ :: free))
    (frame : ∀ place, place < block.header ∨ block.header + 8 ≤ place →
      memory place = pool.memory place) :
    Inv config { pool with memory := memory, freeBlocksLists := lists } rest
      (⟨listNum, block.header, 2 ^ listNum⟩ :: free) := by
  have isLive : block ∈ live := perm.mem_iff.mpr List.mem_cons_self
  have ok := (inv.liveOk block isLive).pooled listNum isListNum
  have wholeEq : block.whole = ⟨block.header, 2 ^ listNum⟩ := by
    unfold Block.whole
    rw [isListNum]
  have tiles := tilesOf_perm perm
  rw [tilesOf_pooled isListNum, wholeEq] at tiles
  have mallocs := mallocsOf_perm perm
  rw [mallocsOf_pooled isListNum] at mallocs
  exact {
    chained := chained
    regionsApart := inv.regionsApart
    region := inv.region
    tiled := inv.tiled.perm ((tiles.append_right _).trans List.perm_middle.symm)
    mallocs := mallocs.symm.trans inv.mallocs
    freeOk := by
      intro other member
      rcases List.mem_cons.mp member with isNew | isFree
      · exact isNew ▸ ⟨rfl, ok.2.1, ok.2.2.1⟩
      · exact inv.freeOk other isFree
    liveOk := by
      intro other member
      have apart := (List.pairwise_append.mp inv.apart).1
      rw [Extent.pairwise_perm (perm.map Block.whole), List.map_cons, wholeEq] at apart
      have between := (List.pairwise_cons.mp apart).1 _ (List.mem_map_of_mem member)
      have otherOk := inv.liveOk other (perm.mem_iff.mpr (List.mem_cons_of_mem _ member))
      have wide := otherOk.wide
      have starts := whole_start other
      have word := eight_le_pow ok.2.1
      unfold Extent.Apart Library.Apart sizeofHeader at *
      dsimp only at between
      exact otherOk.congr (frame _ (by omega)) (frame _ (by omega)) }

/-- A program writes to a block. -/
theorem fill (inv : Inv config pool live free) {block : Block} (isLive : block ∈ live)
    {memory : Memory}
    (frame : ∀ place, place < block.pointer ∨ block.pointer + block.size ≤ place →
      memory place = pool.memory place) :
    Inv config { pool with memory := memory } live free := by
  have ok := inv.liveOk block isLive
  have wide := ok.wide
  have starts := whole_start block
  have pointer := ok.pointer
  refine inv.setMemory ?_ ?_
  · intro other isFree byte byteAbove byteBelow
    have between := inv.live_free_apart isLive isFree
    have word := (inv.freeOk other isFree).word
    unfold Block.header sizeofHeader at *
    unfold Extent.Apart Library.Apart at between
    simp only [freeExtent] at between
    exact frame _ (by omega)
  · intro other otherLive
    have otherOk := inv.liveOk other otherLive
    have otherWide := otherOk.wide
    have otherStarts := whole_start other
    by_cases same : other = block
    · subst same
      unfold Block.header sizeofHeader at *
      exact ⟨frame _ (by omega), frame _ (by omega)⟩
    · have between := Extent.apart_of_map (List.pairwise_append.mp inv.apart).1 otherLive
        isLive same
      unfold Block.header sizeofHeader at *
      unfold Extent.Apart Library.Apart at between
      exact ⟨frame _ (by omega), frame _ (by omega)⟩

/-- The region of a block from `malloc` is the only one that starts there. -/
theorem malloced_unique (inv : Inv config pool live free) {block : Block} (isLive : block ∈ live)
    (isNone : block.listNum = none) :
    block.whole ∈ pool.malloced ∧
      ∀ region ∈ pool.malloced, region.start = block.header → region = block.whole := by
  have member : block.whole ∈ mallocsOf live := by
    unfold mallocsOf
    exact List.mem_map_of_mem (List.mem_filter.mpr ⟨isLive, by rw [isNone]; rfl⟩)
  have inMalloced := inv.mallocs.mem_iff.mp member
  refine ⟨inMalloced, ?_⟩
  intro region isRegion starts
  by_contra different
  have : Std.Symm Extent.Apart := ⟨fun _ _ => Extent.Apart.symm⟩
  have apart := (List.pairwise_append.mp inv.regionsApart).2.1.forall isRegion inMalloced different
  have first := (inv.region region (List.mem_append_right _ isRegion)).2.1
  have second := (inv.region _ (List.mem_append_right _ inMalloced)).2.1
  rw [← whole_start] at starts
  unfold Extent.Apart Library.Apart at apart
  omega

/-! ## The calls -/

theorem findBigger_cases (pool : Pool) (listNum : Nat) :
    pool.findBigger listNum = none ∨
      ∃ i, pool.findBigger listNum = some i ∧ listNum < i ∧ i < maxListsNum ∧
        pool.freeBlocksLists i ≠ 0 := by
  cases found : pool.findBigger listNum with
  | none => exact .inl rfl
  | some i =>
      have inRange := List.mem_range'_1.mp (List.mem_of_find?_eq_some found)
      have nonempty : pool.freeBlocksLists i ≠ 0 := by
        simpa using List.find?_some found
      exact .inr ⟨i, rfl, by omega, by omega, nonempty⟩

/-- The front block of a split is on its list. -/
theorem head_splitBlocks {memory : Memory} {lists : Nat → Nat} {start first log : Nat}
    {rest : List (FreeBlock Nat)}
    (chained : Chained memory lists (splitBlocks start first log ++ rest)) :
    lists first ≠ 0 := by
  rw [Ne, chained.head_eq_zero_iff]
  unfold splitBlocks firstOf
  simp

theorem findNewBlockForList_spec (inv : Inv config pool live free) {listNum answer : Nat}
    (large : 3 ≤ listNum)
    (answers : listNum < maxListsNum →
      Answers pool (2 ^ max firstOsBlockSizeLog listNum) answer) :
    ∃ found next nextFree, pool.findNewBlockForList listNum answer = some (found, next) ∧
      Inv config next live nextFree ∧
      (found = true → listNum < maxListsNum ∧ next.freeBlocksLists listNum ≠ 0) ∧
      Undisturbed live pool.memory next.memory := by
  have nothing : Undisturbed live pool.memory pool.memory := fun _ _ _ _ _ => rfl
  unfold Pool.findNewBlockForList
  by_cases inTable : maxListsNum ≤ listNum
  · rw [if_pos inTable]
    exact ⟨false, pool, free, rfl, inv, fun found => (by cases found), nothing⟩
  · rw [if_neg inTable]
    rcases findBigger_cases pool listNum with none_bigger | ⟨i, bigger, above, below, nonempty⟩
    · rw [none_bigger]
      dsimp only
      by_cases full : pool.osBlocks.length = maxOsBlockNum
      · rw [if_pos full]
        exact ⟨false, pool, free, rfl, inv, fun found => (by cases found), nothing⟩
      · rw [if_neg full]
        by_cases isNull : answer = 0
        · rw [if_pos isNull]
          exact ⟨false, pool, free, rfl, inv, fun found => (by cases found), nothing⟩
        · rw [if_neg isNull]
          have logEq : (if firstOsBlockSizeLog > listNum then firstOsBlockSizeLog else listNum) =
              max firstOsBlockSizeLog listNum := by
            rw [Nat.max_def]
            split <;> split <;> omega
          rw [logEq]
          have fresh : Fresh pool ⟨answer, 2 ^ max firstOsBlockSizeLog listNum⟩ :=
            .of_answers (answers (Nat.lt_of_not_le inTable)) isNull (Nat.two_pow_pos _)
          have top : max firstOsBlockSizeLog listNum ≤ maxListsNum := by
            unfold maxListsNum firstOsBlockSizeLog at *
            omega
          have room : Room answer (max firstOsBlockSizeLog listNum) free := by
            refine ⟨fresh.nonzero, fresh.bound, ?_, fun other isFree => fresh.free_apart inv isFree⟩
            intro other isFree
            have word := (inv.freeOk other isFree).word
            have bound := inv.free_start_lt isFree
            omega
          obtain ⟨memory, lists, split, chained, frame⟩ :=
            splitBlockAndAddToLists_spec large (Nat.le_max_right _ _) (Nat.lt_of_not_le inTable)
              top room inv.chained
          rw [split]
          refine ⟨true, _, _, rfl, inv.extend fresh chained frame
            (splitBlocks_tiles (Nat.le_max_right _ _) answer)
            (splitBlocks_ok large (Nat.le_max_right _ _) (Nat.lt_of_not_le inTable) top), ?_,
            fresh.undisturbed inv frame⟩
          intro _
          exact ⟨Nat.lt_of_not_le inTable, head_splitBlocks chained⟩
    · rw [bigger]
      dsimp only
      obtain ⟨block, memory, lists, found, detached, chained, _, _, frame⟩ :=
        inv.detachFirstBlock_spec nonempty
      obtain ⟨isFree, sameBin⟩ := firstOf_mem found
      have ok := inv.freeOk block isFree
      have roomEq : block.room = 2 ^ i := by rw [ok.room, sameBin]
      have perm := dropFirst_perm found
      have room : Room block.start i (dropFirst i free) := by
        refine ⟨Nat.pos_of_ne_zero (inv.chained.start_ne_zero isFree), ?_, ?_, ?_⟩
        · rw [← roomEq]
          exact inv.free_start_lt isFree
        · intro other member
          have otherFree := perm.mem_iff.mpr (List.mem_cons_of_mem _ member)
          have word := (inv.freeOk other otherFree).word
          have bound := inv.free_start_lt otherFree
          omega
        · intro other member
          rw [← roomEq]
          exact inv.free_word_apart perm member
      obtain ⟨memory', lists', split, splitChained, splitFrame⟩ :=
        @splitBlockAndAddToLists_spec block.start listNum i large (Nat.le_of_lt above)
          (Nat.lt_of_not_le inTable) (Nat.le_of_lt below) _ room
          { pool with memory := memory, freeBlocksLists := lists } chained
      rw [detached]
      simp only [Option.bind_eq_bind, Option.bind_some]
      rw [split]
      have word := ok.word
      have outsideBlock : ∀ place, place < block.start ∨ block.start + block.room ≤ place →
          memory' place = pool.memory place := by
        intro place outside
        rw [splitFrame place (by rw [← roomEq]; exact outside)]
        exact frame place (by omega)
      refine ⟨true, _, _, rfl, inv.refill perm splitChained outsideBlock ?_ ?_, ?_,
        inv.undisturbed_of_free isFree outsideBlock⟩
      · rw [roomEq]
        exact splitBlocks_tiles (Nat.le_of_lt above) block.start
      · exact splitBlocks_ok large (Nat.le_of_lt above) (Nat.lt_of_not_le inTable)
          (Nat.le_of_lt below)
      · intro _
        exact ⟨Nat.lt_of_not_le inTable, head_splitBlocks splitChained⟩

/-- What a call of `Alloc` leads to. -/
inductive Allocated (config : Config) (live : List Block) (size : Nat) (next : Pool) :
    Nat → Prop
  | refused {free : List (FreeBlock Nat)} : Inv config next live free →
      Allocated config live size next 0
  | served {free : List (FreeBlock Nat)} {pointer : Nat} : pointer ≠ 0 →
      Inv config next (⟨pointer, size, source config size⟩ :: live) free →
      Allocated config live size next pointer

theorem allocFromLists_spec (inv : Inv config pool live free) {listNum size answer : Nat}
    (large : 3 ≤ listNum) (inArray : listNum ≤ maxListsNum)
    (fits : size + sizeofHeader ≤ 2 ^ listNum) (fromList : source config size = some listNum)
    (answers : listNum < maxListsNum →
      Answers pool (2 ^ max firstOsBlockSizeLog listNum) answer) :
    ∃ pointer next, pool.allocFromLists listNum answer = some (pointer, next) ∧
      Allocated config live size next pointer ∧
      Undisturbed live pool.memory next.memory := by
  -- what is left to do when the list has a block
  have taken : ∀ {stocked : Pool} {stockedFree : List (FreeBlock Nat)},
      Inv config stocked live stockedFree → stocked.freeBlocksLists listNum ≠ 0 →
      ∃ header next, stocked.detachFirstBlock listNum = some (header, next) ∧
        Allocated config live size next (header + sizeofHeader) ∧
        Undisturbed live stocked.memory next.memory := by
    intro stocked stockedFree stockedInv nonempty
    obtain ⟨block, memory, lists, found, detached, chained, isMalloced, isListNum, frame⟩ :=
      stockedInv.detachFirstBlock_spec nonempty
    have occupied := stockedInv.occupy fits found chained isMalloced isListNum frame
    rw [← fromList] at occupied
    have word := (stockedInv.freeOk block (firstOf_mem found).1).word
    exact ⟨_, _, detached, .served (by unfold sizeofHeader; omega) occupied,
      stockedInv.undisturbed_of_free (firstOf_mem found).1 fun place outside =>
        frame place (by omega)⟩
  unfold Pool.allocFromLists
  rw [if_neg (by omega)]
  by_cases empty : pool.freeBlocksLists listNum = 0
  · rw [if_pos empty]
    obtain ⟨found, next, nextFree, result, nextInv, stocked, kept⟩ :=
      inv.findNewBlockForList_spec large answers
    rw [result]
    simp only [Option.bind_eq_bind, Option.bind_some]
    cases found with
    | false => exact ⟨0, next, rfl, .refused nextInv, kept⟩
    | true =>
        obtain ⟨header, last, detached, allocated, taken⟩ := taken nextInv (stocked rfl).2
        rw [detached]
        exact ⟨_, _, rfl, allocated, kept.trans taken⟩
  · rw [if_neg empty]
    obtain ⟨header, last, detached, allocated, taken⟩ := taken inv empty
    simp only [Option.bind_eq_bind, Option.bind_some, if_true]
    rw [detached]
    exact ⟨_, _, rfl, allocated, taken⟩

/-- `Alloc` may only fail at a list beyond the array, which a threshold rules out. -/
theorem alloc_spec (inv : Inv config pool live free) {size answer : Nat}
    (bound : size + sizeofHeader ≤ 2 ^ 32)
    (answers : Answers pool (systemSize config size) answer) :
    (∃ pointer next, alloc config pool size answer = some (pointer, next) ∧
        Allocated config live size next pointer ∧
        Undisturbed live pool.memory next.memory) ∨
      alloc config pool size answer = none ∧ config.useMallocThreshold = false := by
  have positive : 0 < size + sizeofHeader := Nat.lt_add_left _ (by decide)
  obtain ⟨log, isLog, upper, lower⟩ := getNextPowerOfTwo_spec positive bound
  have noWrap : (size + sizeofHeader) % 2 ^ 64 = size + sizeofHeader :=
    Nat.mod_eq_of_lt (by omega)
  have large : 3 ≤ log := by
    by_contra small
    have pow : 2 ^ log ≤ 2 ^ 2 := Nat.pow_le_pow_right Nat.two_pos (by omega)
    unfold sizeofHeader at upper
    omega
  unfold alloc
  rw [noWrap, isLog]
  simp only [Option.bind_eq_bind, Option.bind_some]
  by_cases isLarge : config.useMallocThreshold = true ∧ mallocThreshold ≤ size
  · rw [if_pos isLarge]
    have fromMalloc : source config size = none := if_pos isLarge
    unfold systemSize at answers
    rw [fromMalloc] at answers
    left
    unfold Pool.allocByMalloc
    by_cases isNull : answer = 0
    · rw [if_pos isNull]
      exact ⟨0, pool, rfl, .refused inv, fun _ _ _ _ _ => rfl⟩
    · rw [if_neg isNull]
      have fresh : Fresh pool ⟨answer, size + sizeofHeader⟩ := .of_answers answers isNull positive
      have occupied := inv.occupyMalloc fresh isLarge.1
      rw [← fromMalloc] at occupied
      refine ⟨_, _, rfl, .served (by unfold sizeofHeader; omega) occupied,
        fresh.undisturbed inv ?_⟩
      intro place outside
      dsimp only at outside
      exact Function.update_of_ne (by omega) _ _
  · rw [if_neg isLarge]
    have fromList : source config size = some log := (if_neg isLarge).trans isLog
    unfold systemSize at answers
    rw [fromList] at answers
    by_cases inArray : log ≤ maxListsNum
    · exact .inl (inv.allocFromLists_spec large inArray upper fromList fun _ => answers)
    · right
      unfold Pool.allocFromLists
      rw [if_pos (by omega)]
      refine ⟨rfl, ?_⟩
      cases used : config.useMallocThreshold with
      | false => rfl
      | true =>
          have small : size < mallocThreshold := by
            by_contra isThreshold
            exact isLarge ⟨used, Nat.le_of_not_lt isThreshold⟩
          have step := lower 11 (by unfold maxListsNum at inArray; omega)
          unfold mallocThreshold sizeofHeader at *
          omega

theorem free_spec (inv : Inv config pool live free) {block : Block} {rest : List Block}
    (perm : live.Perm (block :: rest)) :
    ∃ next nextFree, Winnie1.free config pool block.pointer = some next ∧
      Inv config next rest nextFree ∧ Undisturbed rest pool.memory next.memory := by
  have isLive : block ∈ live := perm.mem_iff.mpr List.mem_cons_self
  have ok := inv.liveOk block isLive
  have pointer := ok.pointer
  have headerPos : block.header ≠ 0 := by unfold Block.header; omega
  unfold Winnie1.free
  rw [if_neg (by omega)]
  change ∃ next nextFree,
    (if config.useMallocThreshold = true ∧ pool.memory block.header ≠ 0 then
      pool.cfree block.header
    else pool.addBlockToList block.header (pool.memory (block.header + 1)).toNat) = some next ∧ _
  cases isListNum : block.listNum with
  | none =>
      obtain ⟨used, marked⟩ := ok.malloced isListNum
      rw [if_pos ⟨used, marked⟩]
      have wholeEq : block.whole = ⟨block.header, block.size + sizeofHeader⟩ := by
        unfold Block.whole
        rw [isListNum]
      have mallocs := mallocsOf_perm perm
      rw [mallocsOf_malloced isListNum] at mallocs
      obtain ⟨inMalloced, unique⟩ := inv.malloced_unique isLive isListNum
      have found : pool.malloced.any (fun region => region.start = block.header) = true := by
        rw [List.any_eq_true]
        exact ⟨block.whole, inMalloced, by rw [whole_start]; exact decide_eq_true rfl⟩
      have erased : pool.malloced.Perm (block.whole ::
          pool.malloced.eraseP fun region => region.start = block.header) := by
        have isFirst : decide (block.whole.start = block.header) = true := by
          rw [whole_start]
          exact decide_eq_true rfl
        obtain ⟨region, before, after, _, starts, split, erasedEq⟩ :=
          List.exists_of_eraseP (p := fun region => region.start = block.header)
            inMalloced isFirst
        have isRegion : region ∈ pool.malloced := by
          rw [split]
          exact List.mem_append_right _ List.mem_cons_self
        rw [erasedEq, split, unique region isRegion (of_decide_eq_true starts)]
        exact List.perm_middle
      unfold Pool.cfree
      rw [if_pos found]
      refine ⟨_, free, rfl, ?_, fun _ _ _ _ _ => rfl⟩
      have regions := (erased.append_left pool.osBlocks).trans List.perm_middle
      exact {
        chained := inv.chained
        regionsApart :=
          (List.pairwise_cons.mp ((Extent.pairwise_perm regions).mp inv.regionsApart)).2
        region := fun other member =>
          inv.region other (regions.mem_iff.mpr (List.mem_cons_of_mem _ member))
        tiled := by
          have tiles := tilesOf_perm perm
          rw [tilesOf_malloced isListNum] at tiles
          exact inv.tiled.perm (tiles.append_right _)
        mallocs := (mallocs.symm.trans (inv.mallocs.trans erased)).cons_inv
        freeOk := inv.freeOk
        liveOk := fun other member =>
          inv.liveOk other (perm.mem_iff.mpr (List.mem_cons_of_mem _ member)) }
  | some listNum =>
      obtain ⟨fits, large, inTable, isMalloced, isNamed⟩ := ok.pooled listNum isListNum
      have byte : (UInt8.ofNat listNum).toNat = listNum := by
        rw [UInt8.toNat_ofNat']
        exact Nat.mod_eq_of_lt (by unfold maxListsNum at inTable; omega)
      rw [if_neg (fun marked => marked.2 isMalloced), isNamed, byte]
      have wholeEq : block.whole = ⟨block.header, 2 ^ listNum⟩ := by
        unfold Block.whole
        rw [isListNum]
      have word := eight_le_pow large
      obtain ⟨memory, lists, added, chained, frame⟩ :=
        addBlockToList_spec inv.chained ⟨listNum, block.header, 2 ^ listNum⟩ headerPos inTable
          (by
            intro other isFree
            have otherWord := (inv.freeOk other isFree).word
            have bound := inv.free_start_lt isFree
            omega)
          (by
            intro other isFree
            have apart := inv.live_free_apart isLive isFree
            have otherWord := (inv.freeOk other isFree).word
            rw [wholeEq] at apart
            unfold Extent.Apart Library.Apart at *
            simp only [freeExtent] at apart
            dsimp only
            omega)
      refine ⟨_, _, added, inv.release perm isListNum chained frame, ?_⟩
      intro other member place low high
      have apart := (List.pairwise_append.mp inv.apart).1
      rw [Extent.pairwise_perm (perm.map Block.whole), List.map_cons, wholeEq] at apart
      have between := (List.pairwise_cons.mp apart).1 _ (List.mem_map_of_mem member)
      unfold Extent.Apart Library.Apart at between
      dsimp only at between
      exact frame place (by dsimp only; omega)

end Inv

end MallocSurvey.Winnie1
