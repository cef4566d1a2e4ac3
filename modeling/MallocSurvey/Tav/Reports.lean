import Mathlib.Algebra.BigOperators.Group.List.Basic
import Mathlib.Data.List.Perm.Subperm
import MallocSurvey.Tav.Returning

/-! # `MBGetMemoryStats` and the leak check of `MBFreeContext`

The degree of fragmentation, a floating-point number, is left out. -/

namespace MallocSurvey.Tav

open Library

/-- The length of `partlyFreeMegaBlocks`. -/
def classCount : Nat := ptrSize * 8 * (1 <<< subpowerOfTwoBlockSizeAccuracy)

/-- The loop over a list; `none` if the steps do not suffice. -/
def megaBlocksFrom (heap : Heap) : Nat → Nat → Option (List Nat)
  | 0, _ => none
  | fuel + 1, mb =>
      if mb = 0 then some []
      else (megaBlocksFrom heap fuel (heap.next mb)).map (mb :: ·)

structure AllocatedBlocks where
  size : Int
  count : Int

structure MBMemoryStats where
  allocatedBlocks : Nat → AllocatedBlocks
  allocatedBlocksLength : Nat
  totalAllocatedBlocks : Int
  partlyFreeMegaBlocks : Int
  freeMegaBlocks : Int
  filledMegaBlocks : Int
  totalMegaBlocks : Int
  totalMegaBlocksSize : Int
  megaBlockSize : Int
  potentiallyFreeMegaBlocks : Int
  netAllocatedBlocksSize : Int
  grossAllocatedBlocksSize : Int
  sysAllocatedBlocks : Int
  sysAllocatedBlocksSize : Int

namespace MBMemoryStats

def zero : MBMemoryStats := ⟨fun _ => ⟨0, 0⟩, 0, 0, 0, 0, 0, 0, 0, 0, 0, 0, 0, 0, 0⟩

def setSize (stats : MBMemoryStats) (i : Nat) (size : Int) : MBMemoryStats :=
  { stats with
    allocatedBlocks := Function.update stats.allocatedBlocks i
      ⟨size, (stats.allocatedBlocks i).count⟩ }

def addCount (stats : MBMemoryStats) (i : Nat) (amount : Int) : MBMemoryStats :=
  { stats with
    allocatedBlocks := Function.update stats.allocatedBlocks i
      ⟨(stats.allocatedBlocks i).size, (stats.allocatedBlocks i).count + amount⟩ }

/-- A megablock of the partly free ones of class `i + startIndex`. -/
def countPartly (allocator : Allocator) (startIndex i : Nat) (stats : MBMemoryStats) (mb : Nat) :
    MBMemoryStats :=
  let index := i + startIndex
  let num := allocator.heap.numOfAllocatedBlocks mb
  let left := allocator.context.blocksLeft index
  let stats := { stats with partlyFreeMegaBlocks := stats.partlyFreeMegaBlocks + 1 }
  let stats := stats.addCount i num
  if mb = allocator.context.justAllocated index then
    let stats := if num = left then
      { stats with potentiallyFreeMegaBlocks := stats.potentiallyFreeMegaBlocks + 1 } else stats
    stats.addCount i (-left)
  else stats

def countFilled (allocator : Allocator) (startIndex : Nat) (stats : MBMemoryStats) (mb : Nat) :
    MBMemoryStats :=
  let index := allocator.heap.index mb
  let i := index - startIndex
  let stats := { stats with filledMegaBlocks := stats.filledMegaBlocks + 1 }
  let stats := stats.addCount i (allocator.heap.numOfAllocatedBlocks mb)
  if mb = allocator.context.justAllocated index then
    stats.addCount i (-allocator.context.blocksLeft index)
  else stats

def addTotals (stats : MBMemoryStats) (i : Nat) : MBMemoryStats :=
  let blocks := stats.allocatedBlocks i
  { stats with
    netAllocatedBlocksSize := stats.netAllocatedBlocksSize + blocks.size * blocks.count
    grossAllocatedBlocksSize :=
      stats.grossAllocatedBlocksSize + (blocks.size + blockHeaderSize) * blocks.count
    totalAllocatedBlocks := stats.totalAllocatedBlocks + blocks.count }

end MBMemoryStats

def startIndex (platform : Platform) : Nat := getIndexFromSize platform 0

/-- The classes from that of size 0 to that of the largest small block. -/
def allocatedBlocksLength (platform : Platform) : Nat :=
  getIndexFromSize platform (maxBlockSize - blockHeaderSize) - startIndex platform + 1

/-- The partly free megablocks of class `i + startIndex`. -/
def MBMemoryStats.countClass (platform : Platform) (fuel : Nat) (allocator : Allocator)
    (stats : MBMemoryStats) (i : Nat) : Option MBMemoryStats := do
  let index := i + startIndex platform
  let partlyFree ← megaBlocksFrom allocator.heap fuel (allocator.context.first index)
  return partlyFree.foldl (countPartly allocator (startIndex platform) i)
    (stats.setSize i (getSizeFromIndex platform index - blockHeaderSize))

def mbGetMemoryStats (platform : Platform) (fuel : Nat) (allocator : Allocator) :
    Option MBMemoryStats := do
  let heap := allocator.heap
  let context := allocator.context
  let length := allocatedBlocksLength platform
  let stats ← (List.range length).foldlM (MBMemoryStats.countClass platform fuel allocator)
    { MBMemoryStats.zero with allocatedBlocksLength := length }
  let free ← megaBlocksFrom heap fuel context.freeMegaBlock
  let stats := { stats with freeMegaBlocks := free.length }
  let filled ← megaBlocksFrom heap fuel context.filledMegaBlock
  let stats := filled.foldl (MBMemoryStats.countFilled allocator (startIndex platform)) stats
  let total := stats.partlyFreeMegaBlocks + stats.freeMegaBlocks + stats.filledMegaBlocks
  let stats := { stats with
    totalMegaBlocks := total
    megaBlockSize := (megaBlockSize + megaBlockHeaderSize : Nat)
    totalMegaBlocksSize := total * (megaBlockSize + megaBlockHeaderSize : Nat) }
  let stats := (List.range length).foldl MBMemoryStats.addTotals stats
  return { stats with
    sysAllocatedBlocks := context.sysAllocatedBlocks
    sysAllocatedBlocksSize := context.sysAllocatedBlocksSize }

/-- A class has a leak unless its only megablock with free blocks is the one being carved and
all of the blocks carved from it have come back. -/
def leaksIn (allocator : Allocator) (index : Nat) : Bool :=
  let first := allocator.context.first index
  first ≠ 0 ∧
    (first = allocator.context.justAllocated index ∧ allocator.heap.next first = 0 →
      allocator.heap.numOfAllocatedBlocks first ≠ allocator.context.blocksLeft index)

def leakDetected (allocator : Allocator) : Bool :=
  allocator.context.filledMegaBlock ≠ 0 ∨ (List.range classCount).any (leaksIn allocator)

/-- Whether there is a leak, what goes back to the system, and the context that is left. -/
def mbFreeContext (fuel : Nat) (allocator : Allocator) :
    Option (Bool × List Nat × Context) := do
  let context := allocator.context
  let partlyFree ← (List.range classCount).mapM fun i =>
    megaBlocksFrom allocator.heap fuel (context.first i)
  let free ← megaBlocksFrom allocator.heap fuel context.freeMegaBlock
  let filled ← megaBlocksFrom allocator.heap fuel context.filledMegaBlock
  return (leakDetected allocator, partlyFree.flatten ++ free ++ filled,
    ⟨fun _ => 0, fun _ => 0, fun _ => 0, fun _ => 0, 0, 0, context.sysAllocatedBlocks,
      context.sysAllocatedBlocksSize⟩)

/-! ## The loops -/

variable {platform : Platform} {allocator : Allocator} {state : State}
  {lists : Place → List Nat} {mb index : Nat}

theorem megaBlocksFrom_eq {heap : Heap} {nodes : List Nat}
    (links : ∀ front node back, nodes = front ++ node :: back → heap.next node = back.headD 0)
    (nonzero : 0 ∉ nodes) {fuel : Nat} (enough : nodes.length < fuel) :
    megaBlocksFrom heap fuel (nodes.headD 0) = some nodes := by
  induction nodes generalizing fuel with
  | nil =>
      obtain ⟨fuel, rfl⟩ := Nat.exists_eq_succ_of_ne_zero (Nat.ne_zero_of_lt enough)
      exact if_pos rfl
  | cons first rest induction =>
      obtain ⟨fuel, rfl⟩ := Nat.exists_eq_succ_of_ne_zero (Nat.ne_zero_of_lt enough)
      have firstNonzero : first ≠ 0 := fun isZero => nonzero (isZero ▸ List.mem_cons_self)
      rw [List.headD_cons, megaBlocksFrom, if_neg firstNonzero, links [] first rest rfl,
        induction _ (fun isZero => nonzero (List.mem_cons_of_mem _ isZero))
          (Nat.lt_of_succ_lt_succ enough)]
      · rfl
      · intro front node back isRest
        exact links (first :: front) node back (isRest ▸ rfl)

theorem linked_next {heap : Heap} {nodes front back : List Nat} {node : Nat}
    (linked : Linked id heap.next nodes) (isNodes : nodes = front ++ node :: back) :
    heap.next node = back.headD 0 := by
  subst isNodes
  induction front with
  | nil => exact linked.2.1
  | cons _ _ induction => exact induction linked.2.2

theorem doublyLinked_next {heap : Heap} {before : Nat} {nodes front back : List Nat} {node : Nat}
    (linked : DoublyLinked 0 heap.next heap.prev before nodes)
    (isNodes : nodes = front ++ node :: back) : heap.next node = back.headD 0 := by
  subst isNodes
  induction front generalizing before with
  | nil => exact linked.2.1
  | cons _ _ induction => exact induction linked.2.2

theorem Shelved.megaBlocksFrom (shelved : Shelved allocator lists) (place : Place) {fuel : Nat}
    (enough : (lists place).length < fuel) :
    Tav.megaBlocksFrom allocator.heap fuel (allocator.context.head place) =
      some (lists place) := by
  rw [shelved.head]
  apply megaBlocksFrom_eq _ (shelved.nonzero place) enough
  intro front node back isNodes
  by_cases isFree : place = .free
  · subst isFree
    exact linked_next shelved.free isNodes
  · exact doublyLinked_next (shelved.linked place isFree) isNodes

theorem Inv.length_le (inv : Inv platform state lists) (place : Place) :
    (lists place).length ≤ state.megaBlocks.length := by
  apply ((inv.shelved.nodup place).subperm _).length_le
  exact fun mb member => (inv.known mb).mpr ⟨place, member⟩

theorem foldl_adds {Item Total : Type} (measure : Total → Int) (amount : Item → Int)
    (add : Total → Item → Total)
    (each : ∀ total item, measure (add total item) = measure total + amount item)
    (items : List Item) (total : Total) :
    measure (items.foldl add total) = measure total + (items.map amount).sum := by
  induction items generalizing total with
  | nil => simp
  | cons first rest induction =>
      rw [List.foldl_cons, induction, each, List.map_cons, List.sum_cons, Int.add_assoc]

theorem sum_only {length position : Nat} (inRange : position < length) (amount : Nat → Int) :
    ((List.range length).map fun i => if position = i then amount i else 0).sum =
      amount position := by
  induction length with
  | zero => omega
  | succ length induction =>
      rw [List.range_succ, List.map_append, List.sum_append, List.map_singleton,
        List.sum_singleton]
      by_cases isLast : position = length
      · have noneBefore : ((List.range length).map
            fun i => if position = i then amount i else 0) = (List.range length).map fun _ => 0 := by
          apply List.map_congr_left
          intro i member
          have below := List.mem_range.mp member
          exact if_neg (by omega)
        rw [noneBefore, if_pos isLast, isLast]
        simp
      · rw [induction (by omega), if_neg isLast, Int.add_zero]

theorem foldlM_some {Item Total : Type} {step : Total → Item → Option Total}
    {pureStep : Total → Item → Total} {items : List Item}
    (each : ∀ total, ∀ item ∈ items, step total item = some (pureStep total item))
    (total : Total) : items.foldlM step total = some (items.foldl pureStep total) := by
  induction items generalizing total with
  | nil => rfl
  | cons first rest induction =>
      rw [List.foldlM_cons, each total first List.mem_cons_self, List.foldl_cons]
      exact induction (fun total item member => each total item (List.mem_cons_of_mem _ member)) _

/-! ## The counts -/

/-- What a megablock adds to the count of its class. -/
def share (allocator : Allocator) (mb index : Nat) : Int :=
  allocator.heap.numOfAllocatedBlocks mb -
    if mb = allocator.context.justAllocated index then allocator.context.blocksLeft index else 0

theorem InUse.share_eq {live chain : List Nat} {carved : Nat}
    (inUse : InUse platform allocator mb index live chain carved) :
    share allocator mb index = live.length := by
  have counted := inUse.counted
  unfold share
  split
  · next isCarving =>
      have left := (inUse.rest isCarving.symm).2.1
      omega
  · next notCarving =>
      have whole := inUse.whole (Ne.symm notCarving)
      omega

theorem count_addCount (stats : MBMemoryStats) (i : Nat) (amount : Int) (position : Nat) :
    ((stats.addCount i amount).allocatedBlocks position).count =
      (stats.allocatedBlocks position).count + if position = i then amount else 0 := by
  unfold MBMemoryStats.addCount
  by_cases same : position = i
  · rw [same, if_pos rfl]
    simp only [Function.update_self]
  · rw [if_neg same, Int.add_zero]
    simp only [Function.update_of_ne same]

theorem count_countPartly (first i : Nat) (stats : MBMemoryStats) (mb position : Nat) :
    ((stats.countPartly allocator first i mb).allocatedBlocks position).count =
      (stats.allocatedBlocks position).count +
        if position = i then share allocator mb (i + first) else 0 := by
  have noEffect : ∀ (stats : MBMemoryStats) (num left : Int),
      ((if num = left then { stats with
        potentiallyFreeMegaBlocks := stats.potentiallyFreeMegaBlocks + 1 } else stats).addCount i
          (-left)).allocatedBlocks = (stats.addCount i (-left)).allocatedBlocks := by
    intro stats num left
    split
    · rfl
    · rfl
  unfold MBMemoryStats.countPartly share
  dsimp only
  split
  · rw [noEffect, count_addCount, count_addCount]
    dsimp only
    split
    · omega
    · omega
  · rw [count_addCount]
    dsimp only
    split
    · omega
    · omega

theorem count_countFilled (first : Nat) (stats : MBMemoryStats) (mb position : Nat) :
    ((stats.countFilled allocator first mb).allocatedBlocks position).count =
      (stats.allocatedBlocks position).count +
        if position = allocator.heap.index mb - first then
          share allocator mb (allocator.heap.index mb) else 0 := by
  unfold MBMemoryStats.countFilled share
  dsimp only
  split
  · rw [count_addCount, count_addCount]
    dsimp only
    split
    · omega
    · omega
  · rw [count_addCount]
    dsimp only
    split
    · omega
    · omega

theorem foldl_addTotals (items : List Nat) (stats : MBMemoryStats) :
    (items.foldl MBMemoryStats.addTotals stats).allocatedBlocks = stats.allocatedBlocks := by
  induction items generalizing stats with
  | nil => rfl
  | cons first rest induction => exact induction _

theorem sum_if {Item : Type} (chosen : Item → Prop) [DecidablePred chosen] (amount : Item → Int)
    (items : List Item) : (items.map fun item => if chosen item then amount item else 0).sum =
      ((items.filter chosen).map amount).sum := by
  induction items with
  | nil => rfl
  | cons first rest induction =>
      rw [List.map_cons, List.sum_cons, induction]
      by_cases isChosen : chosen first
      · rw [if_pos isChosen, List.filter_cons_of_pos (by simpa using isChosen), List.map_cons,
          List.sum_cons]
      · rw [if_neg isChosen, List.filter_cons_of_neg (by simpa using isChosen), Int.zero_add]

/-- The live blocks of some megablocks. -/
theorem sum_mine {megaBlocks : List Nat} (nodup : megaBlocks.Nodup) (live : List Block) :
    (megaBlocks.map fun mb => ((mine live mb).length : Int)).sum =
      ((live.filter fun block => block.megaBlock ∈ megaBlocks).length : Int) := by
  induction live with
  | nil =>
      have nothing : (megaBlocks.map fun mb => ((mine [] mb).length : Int)) =
          megaBlocks.map fun _ => 0 := rfl
      rw [nothing]
      simp
  | cons block rest induction =>
      have atFirst : (megaBlocks.map fun mb => ((mine (block :: rest) mb).length : Int)).sum =
          (megaBlocks.map fun mb => ((mine rest mb).length : Int)).sum +
            (megaBlocks.map fun mb => if mb = block.megaBlock then (1 : Int) else 0).sum := by
        rw [← List.sum_map_add]
        congr 1
        apply List.map_congr_left
        intro mb _
        rw [mine_cons]
        by_cases same : block.megaBlock = mb
        · rw [if_pos same, if_pos same.symm, List.length_cons, Nat.cast_succ]
        · rw [if_neg same, if_neg (Ne.symm same), Int.add_zero]
      rw [atFirst, induction, sum_if (· = block.megaBlock)]
      by_cases isMember : block.megaBlock ∈ megaBlocks
      · have isOnly : (megaBlocks.filter (· = block.megaBlock)).length = 1 := by
          rw [← List.countP_eq_length_filter]
          exact List.count_eq_one_of_mem nodup isMember
        rw [List.filter_cons_of_pos (by simpa using isMember), List.length_cons]
        simp [isOnly]
      · have isNone : megaBlocks.filter (· = block.megaBlock) = [] := by
          rw [List.filter_eq_nil_iff]
          intro mb member isOwner
          exact isMember (of_decide_eq_true isOwner ▸ member)
        rw [List.filter_cons_of_neg (by simpa using isMember), isNone]
        simp

end MallocSurvey.Tav
