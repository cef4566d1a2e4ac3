import MallocSurvey.Tav.Reports

/-! # What is conserved over whole runs -/

namespace MallocSurvey.Tav

open Library

variable {platform : Platform} {state : State} {lists : Place → List Nat} {mb index fuel : Nat}
  {block : Block}

/-- A block that does not come from the system. -/
def Block.Small (block : Block) : Prop := block.size ≤ maxBlockSize - blockHeaderSize

instance (block : Block) : Decidable block.Small := inferInstanceAs (Decidable (_ ≤ _))

/-- The live small blocks of a class. -/
def liveOf (platform : Platform) (state : State) (index : Nat) : List Block :=
  state.live.filter fun block => block.Small ∧ classOf platform block.size = index

theorem Inv.small_iff (inv : Inv platform state lists) (member : block ∈ state.live) :
    block.Small ↔ block.megaBlock ≠ 0 := by
  constructor
  · intro small isSystem
    have large := inv.system block member isSystem
    unfold Block.Small at small
    omega
  · exact fun notSystem => (inv.owned block member notSystem).2.1

/-- A megablock of which a block is live has a live small block. -/
theorem Inv.small_of_mine (inv : Inv platform state lists) (nonzero : mb ≠ 0)
    (someLive : (mine state.live mb).length ≠ 0) : ∃ block ∈ state.live, block.Small := by
  rw [ne_eq, List.length_eq_zero_iff] at someLive
  obtain ⟨header, isMine⟩ := List.exists_mem_of_ne_nil _ someLive
  obtain ⟨block, isLive, isOwner, _⟩ := mem_mine.mp isMine
  exact ⟨block, isLive, (inv.small_iff isLive).mpr (isOwner ▸ nonzero)⟩

/-! ## The statistics -/

theorem startIndex_le (platform : Platform) : startIndex platform ≤ 8 := by
  have isSize : alignUp (0 + blockHeaderSize) = 4 := by decide
  have isLog : (4 - 1 ||| 1).log2 = 1 := by decide
  have atMost := @Nat.and_le_right (platform.shr (4 - 1)
    ((1 : Nat) - (subpowerOfTwoBlockSizeAccuracy : Nat) : Int))
    ((1 <<< subpowerOfTwoBlockSizeAccuracy) - 1)
  unfold startIndex getIndexFromSize
  dsimp only
  rw [isSize, isLog]
  unfold subpowerOfTwoBlockSizeAccuracy at *
  omega

/-- The statistics have an entry for the class of each request that is small. -/
theorem classOf_reported {size : Nat} (small : size ≤ maxBlockSize - blockHeaderSize) :
    startIndex platform ≤ classOf platform size ∧
      classOf platform size < startIndex platform + allocatedBlocksLength platform := by
  have spec := classOf_spec platform small
  have start := startIndex_le platform
  unfold allocatedBlocksLength
  rw [getIndexFromSize_last]
  omega

theorem count_partlyFree (inv : Inv platform state lists) (first i position : Nat)
    (stats : MBMemoryStats) (size : Int) :
    (((lists (.partly (i + first))).foldl (MBMemoryStats.countPartly state.allocator first i)
        (stats.setSize i size)).allocatedBlocks position).count =
      (stats.allocatedBlocks position).count + if position = i then
        ((lists (.partly (i + first))).map fun mb => ((mine state.live mb).length : Int)).sum
        else 0 := by
  have sameCount : ((stats.setSize i size).allocatedBlocks position).count =
      (stats.allocatedBlocks position).count := by
    unfold MBMemoryStats.setSize
    dsimp only
    rw [Function.update_apply]
    split
    · next same => rw [same]
    · rfl
  have counted := foldl_adds (fun stats => (stats.allocatedBlocks position).count)
    (fun mb => if position = i then share state.allocator mb (i + first) else 0)
    (MBMemoryStats.countPartly state.allocator first i)
    (fun stats mb => count_countPartly first i stats mb position)
    (lists (.partly (i + first))) (stats.setSize i size)
  refine counted.trans ?_
  rw [sameCount]
  congr 1
  split
  · congr 1
    apply List.map_congr_left
    intro mb member
    obtain ⟨_, _, _, inUse, _⟩ := inv.standing _ mb member
    exact inUse.share_eq
  · simp

theorem count_filled (inv : Inv platform state lists) (first position : Nat)
    (stats : MBMemoryStats) :
    (((lists .filled).foldl (MBMemoryStats.countFilled state.allocator first)
        stats).allocatedBlocks position).count =
      (stats.allocatedBlocks position).count +
        (((lists .filled).filter fun mb => position = state.allocator.heap.index mb - first).map
          fun mb => ((mine state.live mb).length : Int)).sum := by
  have counted := foldl_adds (fun stats => (stats.allocatedBlocks position).count)
    (fun mb => if position = state.allocator.heap.index mb - first then
      share state.allocator mb (state.allocator.heap.index mb) else 0)
    (MBMemoryStats.countFilled state.allocator first)
    (fun stats mb => count_countFilled first stats mb position) (lists .filled) stats
  refine counted.trans ?_
  rw [sum_if fun mb => position = state.allocator.heap.index mb - first]
  congr 2
  apply List.map_congr_left
  intro mb member
  obtain ⟨index, _, inUse⟩ := inv.standing .filled mb (List.mem_of_mem_filter member)
  rw [inUse.isIndex]
  exact inUse.share_eq

/-- The live blocks of the megablocks of a class. -/
theorem liveOf_eq (inv : Inv platform state lists) (i : Nat) :
    state.live.filter (fun block => block.megaBlock ∈ lists (.partly (i + startIndex platform)) ++
      (lists .filled).filter
        fun mb => i = state.allocator.heap.index mb - startIndex platform) =
      liveOf platform state (i + startIndex platform) := by
  have start := startIndex_le platform
  apply List.filter_congr
  intro block member
  rw [decide_eq_decide, List.mem_append, List.mem_filter, decide_eq_true_eq]
  constructor
  · intro onList
    have nonzero : block.megaBlock ≠ 0 := by
      rcases onList with isPartly | ⟨isFilled, _⟩
      · exact inv.shelved.ne_zero isPartly
      · exact inv.shelved.ne_zero isFilled
    obtain ⟨_, small, isClass⟩ := inv.owned block member nonzero
    refine ⟨small, ?_⟩
    rcases onList with isPartly | ⟨isFilled, isIndex⟩
    · obtain ⟨_, _, _, inUse, _⟩ := inv.standing _ _ isPartly
      exact isClass.symm.trans inUse.isIndex
    · have low := (classOf_spec platform small).1
      rw [isClass] at isIndex
      omega
  · rintro ⟨small, isClass⟩
    have nonzero := (inv.small_iff member).mp small
    obtain ⟨_, _, isIndex⟩ := inv.owned block member nonzero
    obtain ⟨_, _, _, _, onList⟩ := inv.inUse member nonzero
    rcases onList with ⟨isFilled, _⟩ | ⟨isPartly, _⟩
    · refine .inr ⟨isFilled, ?_⟩
      omega
    · exact .inl (isClass ▸ isPartly)

theorem Inv.megaBlocksFrom (inv : Inv platform state lists)
    (enough : state.megaBlocks.length < fuel) (place : Place) :
    Tav.megaBlocksFrom state.allocator.heap fuel (state.allocator.context.head place) =
      some (lists place) := by
  apply inv.shelved.megaBlocksFrom
  have bound := inv.length_le place
  omega

/-- The statistics count the live small blocks of each class. -/
theorem stats_exact (inv : Inv platform state lists)
    (enough : state.megaBlocks.length < fuel) :
    ∃ stats, mbGetMemoryStats platform fuel state.allocator = some stats ∧
      ∀ i < allocatedBlocksLength platform,
        (stats.allocatedBlocks i).count =
          (liveOf platform state (i + startIndex platform)).length := by
  have loops := inv.megaBlocksFrom enough
  obtain ⟨addClass, isAddClass⟩ : ∃ addClass : MBMemoryStats → Nat → MBMemoryStats,
      addClass = fun stats i => (lists (.partly (i + startIndex platform))).foldl
        (MBMemoryStats.countPartly state.allocator (startIndex platform) i)
        (stats.setSize i (getSizeFromIndex platform (i + startIndex platform) -
          blockHeaderSize)) := ⟨_, rfl⟩
  have classes := fun total => @foldlM_some _ _
    (MBMemoryStats.countClass platform fuel state.allocator) addClass
    (List.range (allocatedBlocksLength platform)) (by
      intro stats i _
      have loop : Tav.megaBlocksFrom state.allocator.heap fuel
          (state.allocator.context.first (i + startIndex platform)) = _ :=
        loops (.partly (i + startIndex platform))
      unfold MBMemoryStats.countClass
      dsimp only
      rw [loop, isAddClass]
      rfl) total
  have free : Tav.megaBlocksFrom state.allocator.heap fuel
      state.allocator.context.freeMegaBlock = _ := loops .free
  have filled : Tav.megaBlocksFrom state.allocator.heap fuel
      state.allocator.context.filledMegaBlock = _ := loops .filled
  unfold mbGetMemoryStats
  dsimp only
  rw [classes, free, filled]
  refine ⟨_, rfl, ?_⟩
  intro i inRange
  dsimp only
  rw [foldl_addTotals]
  dsimp only
  rw [count_filled inv]
  dsimp only
  have counted := foldl_adds (fun stats => (stats.allocatedBlocks i).count)
    (fun j => if i = j then ((lists (.partly (j + startIndex platform))).map
      fun mb => ((mine state.live mb).length : Int)).sum else 0) addClass (by
        intro stats j
        rw [isAddClass]
        exact count_partlyFree inv _ j i stats _)
    (List.range (allocatedBlocksLength platform))
    { MBMemoryStats.zero with allocatedBlocksLength := allocatedBlocksLength platform }
  rw [sum_only inRange] at counted
  rw [counted]
  have nodup : (lists (.partly (i + startIndex platform)) ++ (lists .filled).filter
      fun mb => i = state.allocator.heap.index mb - startIndex platform).Nodup := by
    apply (inv.shelved.nodup _).append ((inv.shelved.nodup .filled).filter _)
    intro mb isPartly isFilled
    have onFilled := List.mem_of_mem_filter isFilled
    cases inv.shelved.disjoint _ _ mb isPartly onFilled
  have total := sum_mine nodup state.live
  rw [liveOf_eq inv, List.map_append, List.sum_append] at total
  rw [← total]
  have start : (MBMemoryStats.zero.allocatedBlocks i).count = 0 := rfl
  dsimp only
  rw [start, Int.zero_add]

/-! ## The leak check -/

theorem leaksIn_iff (inv : Inv platform state lists) :
    leaksIn state.allocator index = true ↔
      ∃ mb ∈ lists (.partly index), (mine state.live mb).length ≠ 0 := by
  have isHead : state.allocator.context.first index = (lists (.partly index)).headD 0 :=
    inv.shelved.head (.partly index)
  have linked := inv.shelved.linked (.partly index) (by simp)
  have nodup := inv.shelved.nodup (.partly index)
  have nonzero := inv.shelved.nonzero (.partly index)
  have standing := inv.standing (.partly index)
  unfold leaksIn
  dsimp only
  rw [decide_eq_true_eq, isHead]
  cases isList : lists (.partly index) with
  | nil => simp
  | cons first rest =>
      rw [isList] at linked nodup nonzero standing
      have firstNonzero : first ≠ 0 := fun isZero => nonzero (isZero ▸ List.mem_cons_self)
      obtain ⟨_, _, _, inUse, positive⟩ := standing first List.mem_cons_self
      have isShare := inUse.share_eq
      rw [List.headD_cons, and_iff_right firstNonzero, linked.2.1]
      unfold share at isShare
      by_cases isCarving : first = state.allocator.context.justAllocated index
      · rw [if_pos isCarving] at isShare
        rw [and_iff_right isCarving]
        cases rest with
        | nil =>
            rw [List.headD_nil]
            simp only [List.mem_singleton, exists_eq_left, forall_true_left]
            omega
        | cons second rest =>
            have secondNonzero : second ≠ 0 := fun isZero => nonzero (by simp [isZero])
            rw [List.headD_cons]
            refine iff_of_true (fun isZero => absurd isZero secondNonzero) ⟨second, by simp, ?_⟩
            obtain ⟨_, _, _, secondUse, secondPositive⟩ := standing second (by simp)
            have secondShare := secondUse.share_eq
            have notCarving : second ≠ state.allocator.context.justAllocated index := by
              intro equal
              have same := equal.trans isCarving.symm
              rw [same] at nodup
              exact (List.nodup_cons.mp nodup).1 List.mem_cons_self
            unfold share at secondShare
            rw [if_neg notCarving] at secondShare
            omega
      · rw [if_neg isCarving] at isShare
        refine iff_of_true (fun both => absurd both.1 isCarving) ⟨first, by simp, ?_⟩
        omega

/-- The check finds a leak exactly when a small block is live. -/
theorem leakDetected_iff (inv : Inv platform state lists) :
    leakDetected state.allocator = true ↔ ∃ block ∈ state.live, block.Small := by
  have isHead : state.allocator.context.filledMegaBlock = (lists .filled).headD 0 :=
    inv.shelved.head .filled
  unfold leakDetected
  rw [decide_eq_true_eq, List.any_eq_true]
  constructor
  · rintro (someFilled | ⟨index, _, leaks⟩)
    · have member := @Shelved.first_mem _ _ .filled inv.shelved someFilled
      obtain ⟨index, carved, inUse⟩ := inv.standing .filled _ member
      apply inv.small_of_mine (inv.shelved.ne_zero member)
      have length := inUse.length
      have positive := inUse.positive
      rw [List.length_nil] at length
      omega
    · obtain ⟨mb, member, someLive⟩ := (leaksIn_iff inv).mp leaks
      exact inv.small_of_mine (inv.shelved.ne_zero member) someLive
  · rintro ⟨block, member, small⟩
    have nonzero := (inv.small_iff member).mp small
    obtain ⟨_, _, inUse, isMine, onList⟩ := inv.inUse member nonzero
    rcases onList with ⟨isFilled, _⟩ | ⟨isPartly, _⟩
    · refine .inl fun isNull => ?_
      rw [@Shelved.eq_nil_of_head _ _ .filled inv.shelved isNull] at isFilled
      cases isFilled
    · refine .inr ⟨classOf platform block.size, ?_, (leaksIn_iff inv).mpr
        ⟨block.megaBlock, isPartly, ?_⟩⟩
      · have high := inUse.high
        have length : classCount = 128 := by decide
        rw [List.mem_range]
        omega
      · have positive := List.length_pos_of_mem isMine
        omega

theorem Inv.megaBlocks_nodup (inv : Inv platform state lists) : state.megaBlocks.Nodup := by
  have apart := (List.pairwise_append.mp inv.apart).1
  rw [List.pairwise_map] at apart
  apply apart.imp
  intro left right apart equal
  have positive : 0 < megaBlockSize + megaBlockHeaderSize := by decide
  exact apart.ne positive (congrArg megaExtent equal)

/-- The lists together have each megablock once. -/
theorem Inv.all_listed (inv : Inv platform state lists) :
    ((List.range classCount).flatMap (fun i => lists (.partly i)) ++ lists .free ++
      lists .filled).Perm state.megaBlocks := by
  have isFlat : (List.range classCount).flatMap (fun i => lists (.partly i)) ++ lists .free ++
      lists .filled =
        ((List.range classCount).map Place.partly ++ [Place.free, .filled]).flatMap lists := by
    simp [List.flatMap_append, List.flatMap_map]
  have places : ((List.range classCount).map Place.partly ++ [Place.free, .filled]).Nodup := by
    rw [List.nodup_append]
    exact ⟨List.nodup_range.map fun _ _ same => Place.partly.inj same, by decide, by simp⟩
  have disjoint := inv.shelved.disjoint
  rw [isFlat, List.perm_ext_iff_of_nodup _ inv.megaBlocks_nodup]
  · intro mb
    rw [List.mem_flatMap, inv.known]
    refine ⟨fun ⟨place, _, member⟩ => ⟨place, member⟩, fun ⟨place, member⟩ => ⟨place, ?_, member⟩⟩
    cases place with
    | free => simp
    | filled => simp
    | partly i =>
        obtain ⟨_, _, _, inUse, _⟩ := inv.standing _ mb member
        have high := inUse.high
        have length : classCount = 128 := by decide
        refine List.mem_append_left _ (List.mem_map.mpr ⟨i, List.mem_range.mpr ?_, rfl⟩)
        omega
  · rw [List.nodup_flatMap]
    refine ⟨fun place _ => inv.shelved.nodup place, places.imp ?_⟩
    intro left right different mb inLeft inRight
    exact different (disjoint _ _ mb inLeft inRight)

theorem mapM_some {Item Result : Type} {step : Item → Option Result} {value : Item → Result}
    {items : List Item} (each : ∀ item ∈ items, step item = some (value item)) :
    items.mapM step = some (items.map value) := by
  induction items with
  | nil => rfl
  | cons first rest induction =>
      rw [List.mapM_cons, each first List.mem_cons_self,
        induction fun item member => each item (List.mem_cons_of_mem _ member)]
      rfl

/-- `MBFreeContext` gives each megablock back to the system once. -/
theorem mbFreeContext_spec (inv : Inv platform state lists)
    (enough : state.megaBlocks.length < fuel) :
    ∃ given left, mbFreeContext fuel state.allocator =
        some (leakDetected state.allocator, given, left) ∧ given.Perm state.megaBlocks ∧
      ∀ place, left.head place = 0 := by
  have loops := inv.megaBlocksFrom enough
  have free : Tav.megaBlocksFrom state.allocator.heap fuel
      state.allocator.context.freeMegaBlock = _ := loops .free
  have filled : Tav.megaBlocksFrom state.allocator.heap fuel
      state.allocator.context.filledMegaBlock = _ := loops .filled
  have partlyFree := @mapM_some _ _
    (fun i => Tav.megaBlocksFrom state.allocator.heap fuel (state.allocator.context.first i))
    (fun i => lists (.partly i)) (List.range classCount) fun i _ => loops (.partly i)
  refine ⟨((List.range classCount).map fun i => lists (.partly i)).flatten ++ lists .free ++
    lists .filled, ⟨fun _ => 0, fun _ => 0, fun _ => 0, fun _ => 0, 0, 0,
      state.allocator.context.sysAllocatedBlocks,
      state.allocator.context.sysAllocatedBlocksSize⟩, ?_, ?_, ?_⟩
  · unfold mbFreeContext
    dsimp only
    rw [partlyFree, free, filled]
    rfl
  · rw [← List.flatMap_def]
    exact inv.all_listed
  · intro place
    cases place with
    | free => rfl
    | filled => rfl
    | partly _ => rfl

/-! ## The blocks -/

/-- What a block takes, with its header. -/
def granted (platform : Platform) (block : Block) : Nat :=
  if block.Small then getSizeFromIndex platform (classOf platform block.size)
  else block.size + blockHeaderSize

def blockExtent (platform : Platform) (block : Block) : Extent :=
  ⟨block.header, granted platform block⟩

theorem granted_enough (platform : Platform) (block : Block) :
    block.size + blockHeaderSize ≤ granted platform block := by
  unfold granted
  split
  · next small => exact (classOf_spec platform small).2.2
  · exact Nat.le_refl _

/-- The region of the system that a block is part of. -/
def home (block : Block) : Extent :=
  if block.megaBlock = 0 then sysExtent block else megaExtent block.megaBlock

theorem Inv.inside_home (inv : Inv platform state lists) (member : block ∈ state.live) :
    (blockExtent platform block).Inside (home block) := by
  unfold blockExtent granted home Extent.Inside
  by_cases isSystem : block.megaBlock = 0
  · have notSmall : ¬ block.Small := fun small => (inv.small_iff member).mp small isSystem
    rw [if_neg notSmall, if_pos isSystem]
    exact ⟨Nat.le_refl _, Nat.le_refl _⟩
  · obtain ⟨_, _, inUse, isMine, _⟩ := inv.inUse member isSystem
    have bounds := slot_bounds inUse.low inUse.high inUse.bound (inUse.mem_slots (.inr isMine))
    rw [if_pos ((inv.small_iff member).mpr isSystem), if_neg isSystem]
    unfold megaExtent
    dsimp only
    omega

theorem Inv.homes_apart (inv : Inv platform state lists) {left right : Block}
    (isLeft : left ∈ state.live) (isRight : right ∈ state.live)
    (different : left.header ≠ right.header)
    (notSame : left.megaBlock = 0 ∨ left.megaBlock ≠ right.megaBlock) :
    (home left).Apart (home right) := by
  have known : ∀ block ∈ state.live, block.megaBlock ≠ 0 →
      block.megaBlock ∈ state.megaBlocks :=
    fun block member notSystem => (inv.owned block member notSystem).1
  have system : ∀ block ∈ state.live, block.megaBlock = 0 →
      sysExtent block ∈ (state.live.filter fun block => block.megaBlock = 0).map sysExtent :=
    fun block member isSystem =>
      List.mem_map.mpr ⟨block, List.mem_filter.mpr ⟨member, by simpa using isSystem⟩, rfl⟩
  obtain ⟨_, sysApart, between⟩ := List.pairwise_append.mp inv.apart
  unfold home
  by_cases leftSystem : left.megaBlock = 0
  · rw [if_pos leftSystem]
    by_cases rightSystem : right.megaBlock = 0
    · rw [if_pos rightSystem]
      apply Extent.apart_of_map sysApart
      · exact List.mem_filter.mpr ⟨isLeft, by simpa using leftSystem⟩
      · exact List.mem_filter.mpr ⟨isRight, by simpa using rightSystem⟩
      · exact fun equal => different (equal ▸ rfl)
    · rw [if_neg rightSystem]
      exact (between _ (List.mem_map.mpr ⟨_, known right isRight rightSystem, rfl⟩) _
        (system left isLeft leftSystem)).symm
  · rw [if_neg leftSystem]
    by_cases rightSystem : right.megaBlock = 0
    · rw [if_pos rightSystem]
      exact between _ (List.mem_map.mpr ⟨_, known left isLeft leftSystem, rfl⟩) _
        (system right isRight rightSystem)
    · rw [if_neg rightSystem]
      exact inv.mega_apart (known left isLeft leftSystem) (known right isRight rightSystem)
        (notSame.resolve_left leftSystem)

theorem Inv.blocks_apart (inv : Inv platform state lists) {left right : Block}
    (isLeft : left ∈ state.live) (isRight : right ∈ state.live)
    (different : left.header ≠ right.header) :
    (blockExtent platform left).Apart (blockExtent platform right) := by
  by_cases notSame : left.megaBlock = 0 ∨ left.megaBlock ≠ right.megaBlock
  · exact (inv.homes_apart isLeft isRight different notSame).parts (inv.inside_home isLeft)
      (inv.inside_home isRight)
  · rw [not_or, not_not] at notSame
    obtain ⟨leftSmall, same⟩ := notSame
    have rightSmall : right.megaBlock ≠ 0 := same ▸ leftSmall
    obtain ⟨_, _, inUse, leftMine, _⟩ := inv.inUse isLeft leftSmall
    have rightMine : right.header ∈ mine state.live left.megaBlock :=
      mem_mine.mpr ⟨right, isRight, same.symm, rfl⟩
    have leftClass := (inv.owned left isLeft leftSmall).2.2
    have rightClass := (inv.owned right isRight rightSmall).2.2
    have sameClass : classOf platform right.size = classOf platform left.size := by
      rw [← leftClass, ← rightClass, same]
    have apart := slots_apart (inUse.mem_slots (.inr leftMine))
      (inUse.mem_slots (.inr rightMine)) different
    unfold blockExtent granted
    rw [if_pos ((inv.small_iff isLeft).mpr leftSmall),
      if_pos ((inv.small_iff isRight).mpr rightSmall), sameClass]
    exact .inr (.inr apart)

/-! ## The result -/

/-- What holds of the allocator and its reports. -/
structure Conserved (platform : Platform) (state : State) (lists : Place → List Nat) : Prop where
  shelved : Shelved state.allocator lists
  once : ∀ mb, mb ∈ state.megaBlocks ↔ ∃! place, mb ∈ lists place
  ofClass : ∀ index, ∀ mb ∈ lists (.partly index), state.allocator.heap.index mb = index
  counter : ∀ mb ∈ state.megaBlocks, state.allocator.heap.numOfAllocatedBlocks mb =
    (mine state.live mb).length +
      if state.allocator.context.justAllocated (state.allocator.heap.index mb) = mb then
        state.allocator.context.blocksLeft (state.allocator.heap.index mb) else 0
  /-- The megablock that is being carved is in use, and `blocksLeft` counts its other slots. -/
  carving : ∀ index, state.allocator.context.justAllocated index ≠ 0 →
    (∃ place, place ≠ .free ∧ state.allocator.context.justAllocated index ∈ lists place) ∧
    ∃ carved, carved < blockCount platform index ∧
      state.allocator.context.blocksLeft index = blockCount platform index - carved ∧
      state.allocator.context.nextFreeBlock index =
        state.allocator.context.justAllocated index + megaBlockHeaderSize +
          carved * getSizeFromIndex platform index
  enough : ∀ block ∈ state.live,
    block.size + blockHeaderSize ≤ (blockExtent platform block).length
  apart : (state.live.map (blockExtent platform)).Pairwise Extent.Apart
  reported : ∀ fuel, state.megaBlocks.length < fuel →
    ∃ stats, mbGetMemoryStats platform fuel state.allocator = some stats ∧
      ∀ index, startIndex platform ≤ index →
        index < startIndex platform + allocatedBlocksLength platform →
        (stats.allocatedBlocks (index - startIndex platform)).count =
          (liveOf platform state index).length
  classes : ∀ block ∈ state.live, block.Small →
    startIndex platform ≤ classOf platform block.size ∧
      classOf platform block.size < startIndex platform + allocatedBlocksLength platform
  leak : leakDetected state.allocator = true ↔ ∃ block ∈ state.live, block.Small

theorem Inv.counter (inv : Inv platform state lists) (isKnown : mb ∈ state.megaBlocks) :
    state.allocator.heap.numOfAllocatedBlocks mb = (mine state.live mb).length +
      if state.allocator.context.justAllocated (state.allocator.heap.index mb) = mb then
        state.allocator.context.blocksLeft (state.allocator.heap.index mb) else 0 := by
  obtain ⟨place, member⟩ := (inv.known mb).mp isKnown
  have standing := inv.standing place mb member
  have nonzero := inv.shelved.ne_zero member
  have ofUse : ∀ {index chain carved}, InUse platform state.allocator mb index
      (mine state.live mb) chain carved → _ := fun inUse => inUse.share_eq
  cases place with
  | free =>
      have notCarving : state.allocator.context.justAllocated
          (state.allocator.heap.index mb) ≠ mb := by
        intro isCarving
        obtain ⟨other, notFree, onOther, _⟩ := inv.carving _ (isCarving ▸ nonzero)
        rw [isCarving] at onOther
        exact notFree (inv.shelved.disjoint _ _ mb onOther member)
      rw [if_neg notCarving, standing.1, standing.2]
      rfl
  | filled =>
      obtain ⟨index, _, inUse⟩ := standing
      have isShare := ofUse inUse
      unfold share at isShare
      rw [inUse.isIndex, ← isShare, if_congr eq_comm rfl rfl, Int.sub_add_cancel]
  | partly index =>
      obtain ⟨_, _, _, inUse, _⟩ := standing
      have isShare := ofUse inUse
      unfold share at isShare
      rw [inUse.isIndex, ← isShare, if_congr eq_comm rfl rfl, Int.sub_add_cancel]

theorem Inv.conserved (inv : Inv platform state lists) : Conserved platform state lists where
  shelved := inv.shelved
  once mb := by
    rw [inv.known]
    constructor
    · rintro ⟨place, member⟩
      exact ⟨place, member, fun other onOther => inv.shelved.disjoint _ _ mb onOther member⟩
    · rintro ⟨place, member, _⟩
      exact ⟨place, member⟩
  ofClass index mb member := by
    obtain ⟨_, _, _, inUse, _⟩ := inv.standing _ mb member
    exact inUse.isIndex
  counter mb isKnown := inv.counter isKnown
  carving index nonzero := by
    obtain ⟨place, notFree, member, isIndex⟩ := inv.carving index nonzero
    refine ⟨⟨place, notFree, member⟩, ?_⟩
    have standing := inv.standing place _ member
    cases place with
    | free => exact absurd rfl notFree
    | filled =>
        obtain ⟨other, carved, inUse⟩ := standing
        have sameIndex := inUse.isIndex.symm.trans isIndex
        subst sameIndex
        exact ⟨carved, inUse.rest rfl⟩
    | partly other =>
        obtain ⟨_, carved, _, inUse, _⟩ := standing
        have sameIndex := inUse.isIndex.symm.trans isIndex
        subst sameIndex
        exact ⟨carved, inUse.rest rfl⟩
  enough block _ := granted_enough platform block
  apart := by
    rw [List.pairwise_map]
    have nodup := inv.headers_nodup
    have headers : state.live.Pairwise fun left right => left.header ≠ right.header :=
      List.pairwise_map.mp nodup
    exact headers.imp_of_mem fun isLeft isRight different =>
      inv.blocks_apart isLeft isRight different
  reported fuel enough := by
    obtain ⟨stats, isStats, counts⟩ := stats_exact inv enough
    refine ⟨stats, isStats, ?_⟩
    intro index low high
    have counted := counts (index - startIndex platform) (by omega)
    rw [Nat.sub_add_cancel low] at counted
    exact counted
  classes _ _ small := classOf_reported small
  leak := leakDetected_iff inv

/-- The system has memory for the calls that ask for some. -/
def Served (platform : Platform) (state : State) : Event → Prop
  | .alloc size answer => state.allocator.sysRequest platform size = none ∨ answer ≠ 0
  | .free _ => True
  | .write _ _ => True

/-- In every run the megablocks and their blocks are accounted for, and no call faults unless the
system is out of memory. -/
theorem mbAlloc_conserves (reachable : (machine platform).Reachable (fun _ _ => True) state) :
    (∃ lists, Conserved platform state lists) ∧
      (machine platform).Safe (Served platform) state := by
  obtain ⟨lists, inv⟩ := inv_reachable reachable
  refine ⟨⟨lists, inv.conserved⟩, ?_⟩
  intro event enabled served fault
  cases event with
  | alloc size answer =>
      obtain ⟨next, result, _⟩ := inv_alloc inv enabled served
      cases fault.symm.trans result
  | free ptr => cases fault
  | write ptr value => cases fault

/-- Two small blocks, of which the first has come back. -/
theorem mbAlloc_conserves_two : ∃ state, state.live = [⟨4140, 16, 4096⟩] ∧
    (∃ lists, Conserved ⟨fun _ _ => 0, fun _ _ => 0, fun _ => 0⟩ state lists) ∧
      (machine ⟨fun _ _ => 0, fun _ _ => 0, fun _ => 0⟩).Safe
        (Served ⟨fun _ _ => 0, fun _ _ => 0, fun _ => 0⟩) state := by
  let platform : Platform := ⟨fun _ _ => 0, fun _ _ => 0, fun _ => 0⟩
  let heap : Heap := ⟨fun _ => 0, fun _ => 0, fun _ => 0, fun _ => 0, fun _ => 0, fun _ => 0,
    fun _ => 0⟩
  let start : State :=
    ⟨⟨heap, ⟨fun _ => 0, fun _ => 0, fun _ => 0, fun _ => 0, 0, 0, 0, 0⟩⟩, [], []⟩
  have both : ((step platform start (.alloc 16 4096)).bind fun one =>
      (step platform one (.alloc 16 0)).map State.live) =
        some [⟨4140, 16, 4096⟩, ⟨4120, 16, 4096⟩] := by
    decide +kernel
  have back : ((step platform start (.alloc 16 4096)).bind fun one =>
      (step platform one (.alloc 16 0)).bind fun two =>
        (step platform two (.free 4124)).map State.live) = some [⟨4140, 16, 4096⟩] := by
    decide +kernel
  obtain ⟨one, first, both⟩ := Option.bind_eq_some_iff.mp both
  obtain ⟨two, second, isLive⟩ := Option.map_eq_some_iff.mp both
  rw [first, Option.bind_some, second, Option.bind_some] at back
  obtain ⟨three, third, isLeft⟩ := Option.map_eq_some_iff.mp back
  have enabled : (machine platform).Enabled start (.alloc 16 4096) := by
    refine ⟨by decide, .inr ?_⟩
    intro length _ region member
    cases member
  have enabledAgain : (machine platform).Enabled one (.alloc 16 0) := ⟨by decide, .inl rfl⟩
  have enabledFree : (machine platform).Enabled two (.free 4124) := by
    refine ⟨⟨4120, 16, 4096⟩, ?_, rfl⟩
    rw [isLive]
    simp
  have reachable : (machine platform).Reachable (fun _ _ => True) three :=
    .step (.step (.step (.init ⟨heap, rfl⟩) enabled trivial first) enabledAgain trivial second)
      enabledFree trivial third
  exact ⟨three, isLeft, mbAlloc_conserves reachable⟩

/-- `MBFreeContext` gives every megablock back once, and tells whether a small block is live. -/
theorem megaBlocks_returned (reachable : (machine platform).Reachable (fun _ _ => True) state)
    (enough : state.megaBlocks.length < fuel) :
    ∃ leak given left, mbFreeContext fuel state.allocator = some (leak, given, left) ∧
      given.Nodup ∧ given.Perm state.megaBlocks ∧ (∀ place, left.head place = 0) ∧
      (leak = true ↔ ∃ block ∈ state.live, block.Small) := by
  obtain ⟨lists, inv⟩ := inv_reachable reachable
  obtain ⟨given, left, result, perm, heads⟩ := mbFreeContext_spec inv enough
  exact ⟨_, given, left, result, perm.nodup_iff.mpr inv.megaBlocks_nodup, perm, heads,
    leakDetected_iff inv⟩

theorem megaBlocks_returned_one : ∃ state : State, state.megaBlocks = [4096] ∧
    ∃ leak given left, mbFreeContext 2 state.allocator = some (leak, given, left) ∧
      given.Nodup ∧ given.Perm state.megaBlocks ∧ (∀ place, left.head place = 0) ∧
      (leak = true ↔ ∃ block ∈ state.live, block.Small) := by
  let platform : Platform := ⟨fun _ _ => 0, fun _ _ => 0, fun _ => 0⟩
  let heap : Heap := ⟨fun _ => 0, fun _ => 0, fun _ => 0, fun _ => 0, fun _ => 0, fun _ => 0,
    fun _ => 0⟩
  let start : State :=
    ⟨⟨heap, ⟨fun _ => 0, fun _ => 0, fun _ => 0, fun _ => 0, 0, 0, 0, 0⟩⟩, [], []⟩
  have taken : (step platform start (.alloc 16 4096)).map State.megaBlocks = some [4096] := by
    decide +kernel
  obtain ⟨next, result, isGiven⟩ := Option.map_eq_some_iff.mp taken
  have enabled : (machine platform).Enabled start (.alloc 16 4096) :=
    ⟨by decide, .inr fun _ _ _ member => nomatch member⟩
  exact ⟨next, isGiven, megaBlocks_returned (.step (.init ⟨heap, rfl⟩) enabled trivial result)
    (by rw [isGiven]; decide)⟩

end MallocSurvey.Tav
