import MallocSurvey.Library.Slab
import MallocSurvey.Library.Extents
import MallocSurvey.Library.Transition
import MallocSurvey.Tav.MBAlloc
import MallocSurvey.Tav.Shelves
import Mathlib.Tactic.IntervalCases

/-! # Size classes -/

namespace MallocSurvey.Tav

variable (platform : Platform)

/-- The blocks of a megablock of a class. -/
def blockCount (index : Nat) : Nat := megaBlockSize / getSizeFromIndex platform index

/-- The class of a request, which `MBAlloc` makes at least 1. -/
def classOf (request : Nat) : Nat := getIndexFromSize platform (max request 1)

theorem alignUp_bounds (size : Nat) :
    size ≤ alignUp size ∧ alignUp size < size + 4 ∧ alignUp size % 4 = 0 := by
  unfold alignUp mballocAlignment
  omega

theorem shr_natCast (value : Nat) {count : Int} {amount : Nat} (isAmount : count = amount) :
    platform.shr value count = value / 2 ^ amount := by
  have nonneg : 0 ≤ count := by omega
  rw [Platform.shr, if_pos nonneg, Nat.shiftRight_eq_div_pow, isAmount, Int.toNat_natCast]

theorem getSizeFromIndex_eq {index : Nat} (large : 8 ≤ index) :
    getSizeFromIndex platform index = (4 + index % 4) * 2 ^ (index / 4 - 2) := by
  obtain ⟨exponent, isExponent⟩ : ∃ exponent, index / 4 = exponent + 2 :=
    ⟨index / 4 - 2, by omega⟩
  have isShift : index >>> subpowerOfTwoBlockSizeAccuracy = exponent + 2 := by
    rw [Nat.shiftRight_eq_div_pow]
    exact isExponent
  have isRest : index &&& ((1 <<< subpowerOfTwoBlockSizeAccuracy) - 1) = index % 4 :=
    Nat.and_two_pow_sub_one_eq_mod index 2
  have count : ((exponent + 2 : Nat) : Int) - (subpowerOfTwoBlockSizeAccuracy : Nat) = exponent := by
    unfold subpowerOfTwoBlockSizeAccuracy
    omega
  have small : index % 4 * 2 ^ exponent < 2 ^ (exponent + 2) := by
    rw [Nat.pow_succ, Nat.pow_succ, Nat.mul_assoc, Nat.mul_comm]
    exact Nat.mul_lt_mul_of_pos_left (by omega) (Nat.two_pow_pos exponent)
  have joined := Nat.two_pow_add_eq_or_of_lt small 1
  unfold getSizeFromIndex
  dsimp only
  rw [isShift, isRest, count, Platform.shl, if_pos (Int.natCast_nonneg _), Int.toNat_natCast,
    Nat.shiftLeft_eq, Nat.shiftLeft_eq, Nat.one_mul, isExponent, Nat.add_sub_cancel]
  rw [Nat.mul_one] at joined
  rw [← joined, Nat.add_mul, Nat.pow_add, Nat.mul_comm (2 ^ exponent) (2 ^ 2)]

theorem size_bounds {index : Nat} (low : 12 ≤ index) (high : index ≤ 56) :
    8 ≤ getSizeFromIndex platform index ∧ getSizeFromIndex platform index ≤ maxBlockSize := by
  rw [getSizeFromIndex_eq platform (by omega)]
  unfold maxBlockSize
  interval_cases index <;> decide

theorem blockCount_bounds {index : Nat} (low : 12 ≤ index) (high : index ≤ 56) :
    8 ≤ blockCount platform index ∧
      blockCount platform index * getSizeFromIndex platform index ≤ megaBlockSize := by
  obtain ⟨positive, small⟩ := size_bounds platform low high
  refine ⟨?_, Nat.div_mul_le_self _ _⟩
  rw [blockCount, Nat.le_div_iff_mul_le (by omega)]
  unfold maxBlockSize at small
  unfold megaBlockSize
  omega

/-- The class of a request that the system does not serve. -/
theorem getIndexFromSize_spec {request : Nat} (positive : 1 ≤ request)
    (small : request ≤ maxBlockSize - blockHeaderSize) :
    12 ≤ getIndexFromSize platform request ∧ getIndexFromSize platform request ≤ 56 ∧
      request + blockHeaderSize ≤
        getSizeFromIndex platform (getIndexFromSize platform request) := by
  obtain ⟨above, below, aligned⟩ := alignUp_bounds (request + blockHeaderSize)
  generalize isSize : alignUp (request + blockHeaderSize) = size at above below aligned
  unfold maxBlockSize blockHeaderSize at *
  obtain ⟨last, isLast⟩ : ∃ last, size = last + 1 := ⟨size - 1, by omega⟩
  have odd : (size - 1) ||| 1 = last := by
    rw [isLast, Nat.add_sub_cancel]
    apply Nat.eq_of_testBit_eq
    intro bit
    rw [Nat.testBit_or]
    cases bit with
    | zero => simp [Nat.testBit_zero, show last % 2 = 1 by omega]
    | succ bit => simp [Nat.testBit_succ]
  have nonzero : last ≠ 0 := by omega
  obtain ⟨exponent, isLog⟩ : ∃ exponent, last.log2 = exponent + 2 := by
    have atLeast : 2 ≤ last.log2 := (Nat.le_log2 nonzero).mpr (by omega)
    exact ⟨last.log2 - 2, by omega⟩
  have atMost : exponent < 12 := by
    have below : last.log2 < 14 := (Nat.log2_lt nonzero).mpr (by omega)
    omega
  have lowBound : 2 ^ exponent * 4 ≤ last := by
    have bound := Nat.log2_self_le nonzero
    rw [isLog, Nat.pow_add] at bound
    exact bound
  have highBound : last < 2 ^ exponent * 8 := by
    have bound := @Nat.lt_log2_self last
    rw [isLog, Nat.pow_succ, Nat.pow_succ, Nat.pow_succ] at bound
    omega
  obtain ⟨quotient, isQuotient⟩ : ∃ quotient, last / 2 ^ exponent = quotient := ⟨_, rfl⟩
  have power := Nat.two_pow_pos exponent
  have quotientLow : 4 ≤ quotient := by
    rw [← isQuotient, Nat.le_div_iff_mul_le power]
    omega
  have quotientHigh : quotient < 8 := by
    rw [← isQuotient, Nat.div_lt_iff_lt_mul power]
    omega
  have isIndex : getIndexFromSize platform request = 4 * (exponent + 2) + (quotient - 4) + 1 := by
    unfold getIndexFromSize blockHeaderSize
    dsimp only
    rw [isSize, odd, isLog, @shr_natCast platform (size - 1) _ exponent ?_, isLast,
      Nat.add_sub_cancel, isQuotient]
    · have rest : quotient &&& ((1 <<< subpowerOfTwoBlockSizeAccuracy) - 1) = quotient % 4 :=
        Nat.and_two_pow_sub_one_eq_mod quotient 2
      rw [rest, Nat.shiftLeft_eq, subpowerOfTwoBlockSizeAccuracy]
      omega
    · unfold subpowerOfTwoBlockSizeAccuracy
      omega
  have whole : last < (quotient + 1) * 2 ^ exponent := by
    rw [← Nat.div_lt_iff_lt_mul power, isQuotient]
    exact Nat.lt_succ_self _
  have notLower : exponent = 0 → quotient = last := by
    intro isZero
    rw [← isQuotient, isZero, Nat.pow_zero, Nat.div_one]
  rw [isIndex]
  refine ⟨by omega, by omega, ?_⟩
  rw [getSizeFromIndex_eq platform (by omega)]
  have enough : (4 + (4 * (exponent + 2) + (quotient - 4) + 1) % 4) *
      2 ^ ((4 * (exponent + 2) + (quotient - 4) + 1) / 4 - 2) = (quotient + 1) * 2 ^ exponent := by
    by_cases isLast : quotient = 7
    · subst isLast
      have isHalf : (4 * (exponent + 2) + (7 - 4) + 1) / 4 - 2 = exponent + 1 := by omega
      have isZero : (4 * (exponent + 2) + (7 - 4) + 1) % 4 = 0 := by omega
      rw [isHalf, isZero, Nat.pow_succ]
      omega
    · have isSame : (4 * (exponent + 2) + (quotient - 4) + 1) / 4 - 2 = exponent := by omega
      have isRest : 4 + (4 * (exponent + 2) + (quotient - 4) + 1) % 4 = quotient + 1 := by omega
      rw [isSame, isRest]
  rw [enough]
  omega

theorem classOf_spec {request : Nat} (small : request ≤ maxBlockSize - blockHeaderSize) :
    12 ≤ classOf platform request ∧ classOf platform request ≤ 56 ∧
      request + blockHeaderSize ≤ getSizeFromIndex platform (classOf platform request) := by
  have spec := getIndexFromSize_spec platform (Nat.le_max_right request 1) (by
    unfold maxBlockSize blockHeaderSize at *
    omega)
  refine ⟨spec.1, spec.2.1, le_trans ?_ spec.2.2⟩
  exact Nat.add_le_add_right (Nat.le_max_left _ _) _

/-- The last class, to which the statistics go. -/
theorem getIndexFromSize_last :
    getIndexFromSize platform (maxBlockSize - blockHeaderSize) = 56 := by
  have isSize : alignUp (maxBlockSize - blockHeaderSize + blockHeaderSize) = 16384 := by decide
  have isLog : (16384 - 1 ||| 1).log2 = 13 := by decide
  have isRest : platform.shr (16384 - 1)
      ((13 : Nat) - (subpowerOfTwoBlockSizeAccuracy : Nat) : Int) = 7 :=
    shr_natCast platform (16384 - 1) rfl
  unfold getIndexFromSize
  dsimp only
  rw [isSize, isLog, isRest]
  decide

end MallocSurvey.Tav

/-! # A program with one context

The state keeps the megablocks that the system gave and the live blocks. The program may
write to the first word of a live block, where a free one has its link. -/

namespace MallocSurvey.Tav

open Library

/-- A live block with the size that was asked for and the megablock that its header names. -/
structure Block where
  header : Nat
  size : Nat
  megaBlock : Nat
deriving DecidableEq

def Block.ptr (block : Block) : Nat := block.header + blockHeaderSize

structure State where
  allocator : Allocator
  megaBlocks : List Nat
  live : List Block

inductive Event
  | alloc (size answer : Nat)
  | free (ptr : Nat)
  | write (ptr value : Nat)

/-- The megablock together with its header. -/
def megaExtent (mb : Nat) : Extent := ⟨mb, megaBlockSize + megaBlockHeaderSize⟩

def sysExtent (block : Block) : Extent := ⟨block.header, block.size + blockHeaderSize⟩

/-- What the system has given and not been given back. -/
def regions (state : State) : List Extent :=
  state.megaBlocks.map megaExtent ++
    (state.live.filter fun block => block.megaBlock = 0).map sysExtent

/-- A request is an `int`, and the system returns null or memory that it has not given yet. -/
def Enabled (platform : Platform) (state : State) : Event → Prop
  | .alloc size answer => size < 2 ^ 31 ∧ (answer = 0 ∨
      ∀ length, state.allocator.sysRequest platform size = some length →
        ∀ region ∈ regions state, Extent.Apart ⟨answer, length⟩ region)
  | .free ptr => ∃ block ∈ state.live, block.ptr = ptr
  | .write ptr _ => ∃ block ∈ state.live, block.ptr = ptr

def step (platform : Platform) (state : State) : Event → Option State
  | .alloc size answer => do
      let (ptr, allocator) ← state.allocator.mbAlloc platform size answer
      let header := ptr - blockHeaderSize
      let given := size ≤ maxBlockSize - blockHeaderSize ∧
        (state.allocator.sysRequest platform size).isSome
      return {
        allocator := allocator
        megaBlocks := if given then answer :: state.megaBlocks else state.megaBlocks
        live := ⟨header, size, allocator.heap.megaBlock header⟩ :: state.live }
  | .free ptr => some { state with
      allocator := state.allocator.mbFree platform ptr
      live := state.live.eraseP fun block => block.ptr = ptr }
  | .write ptr value => some { state with allocator := { state.allocator with
      heap := state.allocator.heap.setNextFreeBlock (ptr - blockHeaderSize) value } }

/-- The context is the one that the program starts with. -/
def Init (state : State) : Prop :=
  ∃ heap, state = ⟨⟨heap, ⟨fun _ => 0, fun _ => 0, fun _ => 0, fun _ => 0, 0, 0, 0, 0⟩⟩, [], []⟩

def machine (platform : Platform) : Machine State Event :=
  ⟨Init, Enabled platform, step platform⟩

/-- The live blocks of a megablock. -/
def mine (live : List Block) (mb : Nat) : List Nat :=
  (live.filter fun block => block.megaBlock = mb).map Block.header

variable (platform : Platform)

/-- The blocks of a megablock that have been carved. -/
def slots (mb index carved : Nat) : List Nat :=
  run (mb + megaBlockHeaderSize) carved (getSizeFromIndex platform index)

/-- A megablock that serves a class: its first blocks are live or in its chain. -/
structure InUse (allocator : Allocator) (mb index : Nat) (live chain : List Nat)
    (carved : Nat) : Prop where
  isIndex : allocator.heap.index mb = index
  low : 12 ≤ index
  high : index ≤ 56
  first : allocator.heap.firstBlock mb = chain.headD 0
  linked : Linked id allocator.heap.nextFreeBlock chain
  blocks : (chain ++ live).Perm (slots platform mb index carved)
  owner : ∀ block ∈ slots platform mb index carved, allocator.heap.megaBlock block = mb
  counted : allocator.heap.numOfAllocatedBlocks mb =
    live.length + (blockCount platform index - carved)
  positive : 0 < carved
  bound : carved ≤ blockCount platform index
  whole : allocator.context.justAllocated index ≠ mb → carved = blockCount platform index
  /-- The rest of the megablock has not been carved yet. -/
  rest : allocator.context.justAllocated index = mb →
    carved < blockCount platform index ∧
      allocator.context.blocksLeft index = blockCount platform index - carved ∧
      allocator.context.nextFreeBlock index =
        mb + megaBlockHeaderSize + carved * getSizeFromIndex platform index

/-- What holds of a megablock on a list. -/
def Standing (allocator : Allocator) (live : List Nat) (mb : Nat) : Place → Prop
  | .free => live = [] ∧ allocator.heap.numOfAllocatedBlocks mb = 0
  | .filled => ∃ index carved, InUse platform allocator mb index live [] carved
  | .partly index => ∃ chain carved, chain ≠ [] ∧
      InUse platform allocator mb index live chain carved ∧
      0 < allocator.heap.numOfAllocatedBlocks mb

structure Inv (state : State) (lists : Place → List Nat) : Prop where
  shelved : Shelved state.allocator lists
  known : ∀ mb, mb ∈ state.megaBlocks ↔ ∃ place, mb ∈ lists place
  standing : ∀ place, ∀ mb ∈ lists place,
    Standing platform state.allocator (mine state.live mb) mb place
  carving : ∀ index, state.allocator.context.justAllocated index ≠ 0 →
    ∃ place, place ≠ .free ∧ state.allocator.context.justAllocated index ∈ lists place ∧
      state.allocator.heap.index (state.allocator.context.justAllocated index) = index
  system : ∀ block ∈ state.live, block.megaBlock = 0 → maxBlockSize - blockHeaderSize < block.size
  owned : ∀ block ∈ state.live, block.megaBlock ≠ 0 →
    block.megaBlock ∈ state.megaBlocks ∧ block.size ≤ maxBlockSize - blockHeaderSize ∧
      state.allocator.heap.index block.megaBlock = classOf platform block.size
  header : ∀ block ∈ state.live, state.allocator.heap.megaBlock block.header = block.megaBlock
  apart : (regions state).Pairwise Extent.Apart

variable {platform}

theorem inv_init {state : State} (init : Init state) : Inv platform state fun _ => [] := by
  obtain ⟨heap, isState⟩ := init
  subst isState
  refine ⟨Shelved.initial ?_, ?_, ?_, ?_, ?_, ?_, ?_, List.Pairwise.nil⟩
  · intro place
    cases place with
    | free => rfl
    | filled => rfl
    | partly index => rfl
  · simp
  · intro place mb member
    cases member
  · intro index nonzero
    exact absurd rfl nonzero
  · intro block member
    cases member
  · intro block member
    cases member
  · intro block member
    cases member

end MallocSurvey.Tav
