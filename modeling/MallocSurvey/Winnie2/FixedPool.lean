import MallocSurvey.Winnie2.Reuse

/-! # One size of the pool

A program that calls `fixed_malloc` and `fixed_free` with one size. -/

namespace MallocSurvey.Winnie2

open Library

structure PoolState where
  fa : FixedAllocator
  /-- The pointer returned last is in front. -/
  live : List Nat

inductive PoolEvent
  | malloc (answer : Nat)
  /-- `fixed_free` for the `index`-th of the live pointers -/
  | free (index : Nat)
  /-- The program writes to a block. -/
  | write (place : Nat) (value : UInt8)

def poolMachine (size : Nat) : Machine PoolState PoolEvent where
  Init state := ∃ memory, state = ⟨.initial memory, []⟩
  Enabled state
    | .malloc answer => Answers state.fa.reserved largeBlockSize answer
    | .free index => index < state.live.length
    | .write place _ => ∃ block ∈ state.live, block ≤ place ∧ place < block + size
  step state
    | .malloc answer => do
        let (ptr, fa) ← fixedMalloc state.fa size answer
        return ⟨fa, ptr :: state.live⟩
    | .free index => do
        let ptr ← state.live[index]?
        let fa ← fixedFree state.fa ptr size
        return ⟨fa, state.live.eraseIdx index⟩
    | .write place value =>
        some { state with fa := { state.fa with
          memory := Function.update state.fa.memory place value } }

/-- The blocks that are found from the head of the list on. -/
structure OnFreeList (fa : FixedAllocator) (size : Nat) (free : List Nat) : Prop where
  head : fa.firstFrees size = free.headD 0
  linked : Linked id (loadPointer fa.memory) free

/-- The blocks and the links in the free ones are in their places, and no request
divides by zero. -/
structure PoolSafe (size : Nat) (state : PoolState) : Prop where
  blocks : ∃ free, OnFreeList state.fa size free ∧
    ((state.live ++ free).map fun block => (⟨block, size⟩ : Extent)).Pairwise Extent.Apart ∧
    (∀ block ∈ state.live ++ free, ∃ region ∈ state.fa.reserved,
      Extent.Inside ⟨block, size⟩ region) ∧
    ∀ block ∈ free, Extent.Inside ⟨block, 8⟩ ⟨block, size⟩
  malloc : ∀ answer ≠ 0, fixedMalloc state.fa size answer ≠ none

/-! ## Sizes of a word and more -/

/-- A live pointer as a block of the adapter for elements of one byte. -/
def pooled (size start : Nat) : Block := ⟨start, size, some (.bin size)⟩

def PoolHeld (size : Nat) (state : PoolState) : Prop :=
  ∃ free chunks, Inv 1 state.fa (state.live.map (pooled size)) free chunks

section Held

variable {size : Nat} {state next : PoolState}

theorem PoolHeld.malloc {answer : Nat} (held : PoolHeld size state) (word : 8 ≤ size)
    (small : size ≤ 256) (answers : Answers state.fa.reserved largeBlockSize answer)
    (result : (poolMachine size).step state (.malloc answer) = some next) :
    PoolHeld size next := by
  obtain ⟨free, chunks, inv⟩ := held
  obtain ⟨⟨ptr, fa⟩, served, isNext⟩ := Option.bind_eq_some_iff.mp result
  cases isNext
  rw [← Nat.mul_one size] at served
  obtain ⟨_, ⟨_, taken⟩ | ⟨_, taken⟩⟩ :=
    fixedMalloc_spec inv (by omega) (by omega) answers served
  · rw [Nat.mul_one] at taken
    exact ⟨_, _, taken⟩
  · rw [Nat.mul_one] at taken
    exact ⟨_, _, taken⟩

theorem PoolHeld.free {index : Nat} (held : PoolHeld size state) (word : 8 ≤ size)
    (small : size ≤ 256) (result : (poolMachine size).step state (.free index) = some next) :
    PoolHeld size next := by
  obtain ⟨free, chunks, inv⟩ := held
  obtain ⟨ptr, found, rest⟩ := Option.bind_eq_some_iff.mp result
  obtain ⟨fa, isFreed, isNext⟩ := Option.bind_eq_some_iff.mp rest
  cases isNext
  have isBlock : (state.live.map (pooled size))[index]? = some (pooled size ptr) := by
    rw [List.getElem?_map, found]
    rfl
  have isLive := List.mem_of_getElem? isBlock
  have ok : BlockOk 1 state.fa chunks (pooled size ptr) := by
    rcases inv.liveOk _ isLive with isNull | ok
    · cases isNull.2
    · exact ok
  have pushed := inv.push isBlock ok (show size * 1 ≤ 256 by omega)
  have isPushed : { state.fa with
      memory := storePointer state.fa.memory ptr (state.fa.firstFrees size)
      firstFrees := Function.update state.fa.firstFrees size ptr } = fa := by
    unfold fixedFree at isFreed
    split at isFreed
    · cases isFreed
    · exact Option.some.inj isFreed
  unfold pooled at pushed
  dsimp only at pushed
  rw [Nat.mul_one, isPushed, List.eraseIdx_map] at pushed
  exact ⟨_, _, pushed⟩

theorem PoolHeld.write {place : Nat} (held : PoolHeld size state) (value : UInt8)
    (inside : ∃ block ∈ state.live, block ≤ place ∧ place < block + size) :
    PoolHeld size { state with fa := { state.fa with
      memory := Function.update state.fa.memory place value } } := by
  obtain ⟨free, chunks, inv⟩ := held
  obtain ⟨block, isLive, above, below⟩ := inside
  have isBlock : pooled size block ∈ state.live.map (pooled size) := List.mem_map_of_mem isLive
  have bound : place < block + size * 1 := by omega
  exact ⟨free, chunks, inv.write isBlock above bound value⟩

theorem reachable_held (word : 8 ≤ size) (small : size ≤ 256)
    (reachable : (poolMachine size).Reachable (fun _ _ => True) state) : PoolHeld size state := by
  refine reachable.invariant ?_ ?_
  · intro state isInit
    obtain ⟨memory, isState⟩ := isInit
    subst isState
    exact ⟨[], [], inv_initial 1 memory⟩
  · intro state event next held enabled _ result
    cases event with
    | malloc answer => exact held.malloc word small enabled result
    | free index => exact held.free word small result
    | write place value =>
        cases result
        exact held.write value enabled

/-- The invariant of the adapter makes the pool safe. -/
theorem PoolHeld.safe (held : PoolHeld size state) (word : 8 ≤ size) (small : size ≤ 256) :
    PoolSafe size state where
  blocks := by
    obtain ⟨free, chunks, inv⟩ := held
    have sameRoom : ∀ block ∈ free.filter (fun block => block.bin = size),
        (⟨block.start, size⟩ : Extent) = freeExtent block := by
      intro block member
      obtain ⟨isFree, sameBin⟩ := List.mem_filter.mp member
      have room := (inv.freeOk block isFree).room
      rw [decide_eq_true_eq] at sameBin
      rw [freeExtent, room, sameBin]
    have isPieces : (state.live ++ startsOf size free).map (fun block => (⟨block, size⟩ : Extent)) =
        pieces 1 (state.live.map (pooled size)) (free.filter fun block => block.bin = size) := by
      unfold pieces startsOf
      rw [List.map_append, List.map_map, List.map_map]
      congr 1
      · apply List.map_congr_left
        intro start _
        simp only [Function.comp_apply, Block.whole, pooled, Nat.mul_one]
      · exact List.map_congr_left sameRoom
    have fewer : (pieces 1 (state.live.map (pooled size))
        (free.filter fun block => block.bin = size)).Sublist
          (pieces 1 (state.live.map (pooled size)) free) :=
      (List.Sublist.refl _).append (List.filter_sublist.map _)
    refine ⟨startsOf size free, ⟨inv.chained.head size, inv.chained.linked size⟩,
      isPieces ▸ inv.apart.sublist fewer, ?_, fun block _ => ⟨Nat.le_refl _, ?_⟩⟩
    · intro block member
      have isPiece : (⟨block, size⟩ : Extent) ∈ pieces 1 (state.live.map (pooled size)) free :=
        fewer.subset (isPieces ▸ List.mem_map_of_mem member)
      exact inv.inside _ isPiece (show size ≠ 0 by omega)
    · simpa using word
  malloc := by
    intro answer nonzero
    have inTable : ¬ UPTO ≤ size := by
      unfold UPTO
      omega
    unfold fixedMalloc newBlock
    rw [if_neg inTable, if_neg (show ¬ (size = 0 ∨ answer = 0) by omega)]
    split
    · exact Option.some_ne_none _
    · exact Option.some_ne_none _

end Held

/-! ## Smaller sizes -/

section Small

variable {size : Nat}

/-- The first byte of a new large block is that of its first link. -/
theorem linkBlocks_first (block : Nat) (memory : Memory) (positive : 0 < size)
    (count : Nat) :
    (List.range (count + 1)).foldl (linkBlock block size) memory block =
      linkBlock block size memory 0 block := by
  induction count with
  | zero => rfl
  | succ count induction =>
      rw [List.range_succ, List.foldl_append]
      have later : block < block + (count + 1) * size :=
        Nat.lt_add_of_pos_right (Nat.mul_pos (Nat.succ_pos count) positive)
      exact (linkBlock_outside (.inl later)).trans induction

/-- What the first request of the program finds, with a large block at `4096`. -/
theorem first_malloc (positive : 0 < size) (small : size < 8) :
    ∃ fa, fixedMalloc (.initial fun _ => 0) size 4096 = some (4096, fa) ∧
      fa.firstFrees size ≠ 0 := by
  have inTable : ¬ UPTO ≤ size := by
    unfold UPTO
    omega
  have several : 1 < nBlocks size := by
    unfold nBlocks largeBlockSize
    rw [Nat.lt_div_iff_mul_lt positive]
    omega
  obtain ⟨count, isCount⟩ := Nat.exists_eq_succ_of_ne_zero (show nBlocks size ≠ 0 by omega)
  have isByte : linkBlocks 4096 size (fun _ => 0) 4096 = UInt8.ofNat (4096 + size) := by
    unfold linkBlocks
    rw [isCount, linkBlocks_first 4096 _ positive]
    unfold linkBlock storePointer storeBytes
    rw [if_pos (by omega), if_pos (by omega)]
    simp
  refine ⟨⟨Function.update (fun _ => 0) size (loadPointer (linkBlocks 4096 size fun _ => 0) 4096),
    linkBlocks 4096 size fun _ => 0, [⟨4096, largeBlockSize⟩]⟩, ?_, ?_⟩
  · have noBlock : (FixedAllocator.initial fun _ => 0).firstFrees size = 0 := rfl
    have valid : ¬ (size = 0 ∨ 4096 = 0) := by omega
    unfold fixedMalloc newBlock
    rw [if_neg inTable, if_pos noBlock, if_neg valid]
    rfl
  · dsimp only
    rw [Function.update_self]
    unfold loadPointer loadBytes
    rw [isByte, UInt8.toNat_ofNat']
    omega

/-- A size below a word is not safe. -/
theorem unsafe_of_small (small : size < 8) :
    ∃ state, (poolMachine size).Reachable (fun _ _ => True) state ∧ ¬ PoolSafe size state := by
  have start : (poolMachine size).Reachable (fun _ _ => True) ⟨.initial fun _ => 0, []⟩ :=
    .init ⟨fun _ => 0, rfl⟩
  rcases Nat.eq_zero_or_pos size with isZero | positive
  · refine ⟨_, start, ?_⟩
    intro safe
    apply safe.malloc 1 (by decide)
    rw [isZero]
    rfl
  · obtain ⟨fa, served, nonempty⟩ := first_malloc positive small
    have enabled : (poolMachine size).Enabled ⟨.initial fun _ => 0, []⟩ (.malloc 4096) :=
      .inr ⟨by decide, fun _ member => nomatch member⟩
    have result : (poolMachine size).step ⟨.initial fun _ => 0, []⟩ (.malloc 4096) =
        some ⟨fa, [4096]⟩ := by
      change (fixedMalloc (.initial fun _ => 0) size 4096 >>= _) = _
      rw [served]
      rfl
    refine ⟨_, .step start enabled trivial result, ?_⟩
    intro safe
    obtain ⟨free, onList, _, _, links⟩ := safe.blocks
    cases free with
    | nil => exact nonempty onList.head
    | cons block rest =>
        have inside := (links block List.mem_cons_self).2
        dsimp only at inside
        omega

end Small

/-! ## All sizes -/

/-- The pool of a size is safe exactly if the blocks hold a link. -/
theorem pool_safe_iff (size : Nat) (small : size ≤ 256) :
    (∀ state, (poolMachine size).Reachable (fun _ _ => True) state → PoolSafe size state) ↔
      8 ≤ size := by
  constructor
  · intro allSafe
    by_contra tooSmall
    obtain ⟨state, reachable, notSafe⟩ := unsafe_of_small (Nat.lt_of_not_le tooSmall)
    exact notSafe (allSafe state reachable)
  · intro word state reachable
    exact (reachable_held word small reachable).safe word small

theorem pool_safe_sixteen :
    (∀ state, (poolMachine 16).Reachable (fun _ _ => True) state → PoolSafe 16 state) ↔ 8 ≤ 16 :=
  pool_safe_iff 16 (by decide)

/-- A block of four bytes does not hold its link. -/
theorem fourBytes_not_safe :
    ¬ ∀ state, (poolMachine 4).Reachable (fun _ _ => True) state → PoolSafe 4 state := by
  intro allSafe
  obtain ⟨state, reachable, notSafe⟩ := unsafe_of_small (show 4 < 8 by decide)
  exact notSafe (allSafe state reachable)

end MallocSurvey.Winnie2
