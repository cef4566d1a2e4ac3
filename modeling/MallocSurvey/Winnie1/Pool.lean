import MallocSurvey.Library.Extents
import MallocSurvey.Library.FreeLists
import MallocSurvey.Library.Tiling
import MallocSurvey.Library.Transition
import Mathlib.Data.Nat.Size

/-! # The pool of `winnie_alloc.cpp`

`answer` is what the system returns if a call asks it for memory, zero for `NULL`. A
dereference of `NULL`, an index outside an array and a `free` of memory that `malloc`
did not return are `none`. Statistics are off, as in the configuration. -/

namespace MallocSurvey.Winnie1

open Library

def firstOsBlockSizeLog : Nat := 20

def maxListsNum : Nat := 31

def maxOsBlockNum : Nat := 1 + 0x800000000 / 2 ^ firstOsBlockSizeLog

def mallocThreshold : Nat := 1024

def sizeofHeader : Nat := 8

/-- `WINNIE_ALLOC_USE_MALLOC_THRESHOLD`; the configuration sets it. -/
structure Config where
  useMallocThreshold : Bool

structure Pool where
  /-- `osBlocks` with the sizes that `SystemAlloc` was asked for, the last one in front -/
  osBlocks : List Extent
  freeBlocksLists : Nat → Nat
  memory : Memory
  /-- what `malloc` returned and was not freed -/
  malloced : List Extent

def Pool.initial (memory : Memory) : Pool := ⟨[], fun _ => 0, memory, []⟩

def bitTable : List Nat := [
  0, 1, 2, 2, 3, 3, 3, 3, 4, 4, 4, 4, 4, 4, 4, 4,
  5, 5, 5, 5, 5, 5, 5, 5, 5, 5, 5, 5, 5, 5, 5, 5,
  6, 6, 6, 6, 6, 6, 6, 6, 6, 6, 6, 6, 6, 6, 6, 6,
  6, 6, 6, 6, 6, 6, 6, 6, 6, 6, 6, 6, 6, 6, 6, 6,
  7, 7, 7, 7, 7, 7, 7, 7, 7, 7, 7, 7, 7, 7, 7, 7,
  7, 7, 7, 7, 7, 7, 7, 7, 7, 7, 7, 7, 7, 7, 7, 7,
  7, 7, 7, 7, 7, 7, 7, 7, 7, 7, 7, 7, 7, 7, 7, 7,
  7, 7, 7, 7, 7, 7, 7, 7, 7, 7, 7, 7, 7, 7, 7, 7,
  8, 8, 8, 8, 8, 8, 8, 8, 8, 8, 8, 8, 8, 8, 8, 8,
  8, 8, 8, 8, 8, 8, 8, 8, 8, 8, 8, 8, 8, 8, 8, 8,
  8, 8, 8, 8, 8, 8, 8, 8, 8, 8, 8, 8, 8, 8, 8, 8,
  8, 8, 8, 8, 8, 8, 8, 8, 8, 8, 8, 8, 8, 8, 8, 8,
  8, 8, 8, 8, 8, 8, 8, 8, 8, 8, 8, 8, 8, 8, 8, 8,
  8, 8, 8, 8, 8, 8, 8, 8, 8, 8, 8, 8, 8, 8, 8, 8,
  8, 8, 8, 8, 8, 8, 8, 8, 8, 8, 8, 8, 8, 8, 8, 8,
  8, 8, 8, 8, 8, 8, 8, 8, 8, 8, 8, 8, 8, 8, 8, 8]

def getNextPowerOfTwo (size : Nat) : Option Nat :=
  -- `--k` on a `size_t`
  let k := (size + 2 ^ 64 - 1) % 2 ^ 64
  if k < 256 then bitTable[k]?
  else if k < 256 * 256 then (bitTable[k >>> 8]?).map (· + 8)
  else if k < 256 * 256 * 256 then (bitTable[k >>> 16]?).map (· + 16)
  else (bitTable[k >>> 24]?).map (· + 24)

/-- `free_blocks_lists` has `max_lists_num + 1` elements. -/
def Pool.addBlockToList (pool : Pool) (pMemory listNum : Nat) : Option Pool :=
  if listNum < maxListsNum + 1 then
    some { pool with
      memory := storePointer pool.memory pMemory (pool.freeBlocksLists listNum)
      freeBlocksLists := Function.update pool.freeBlocksLists listNum pMemory }
  else none

/-- The header of an allocated block: `is_malloced` and `list_num`. -/
def Pool.detachFirstBlock (pool : Pool) (listNum : Nat) : Option (Nat × Pool) :=
  let header := pool.freeBlocksLists listNum
  if header = 0 then none
  else
    let lists := Function.update pool.freeBlocksLists listNum (loadPointer pool.memory header)
    let named := Function.update pool.memory (header + 1) (UInt8.ofNat listNum)
    let memory := Function.update named header 0
    some (header, { pool with freeBlocksLists := lists, memory := memory })

/-- The loop of `SplitBlockAndAddToLists`; the counter is unsigned and would pass a
`first_list_num` of zero. -/
def splitLoop (firstListNum : Nat) : Nat → Nat → Pool → Option Pool
  | 0, _, pool => if firstListNum = 0 then none else some pool
  | i + 1, pMemory, pool =>
      if firstListNum ≤ i + 1 then do
        let pool ← pool.addBlockToList pMemory (i + 1)
        splitLoop firstListNum i (pMemory - 2 ^ i) pool
      else some pool

def Pool.splitBlockAndAddToLists (pool : Pool) (pRawMemory firstListNum memoryLogSize : Nat) :
    Option Pool := do
  let pMemory := pRawMemory + 2 ^ (memoryLogSize - 1)
  let pool ← splitLoop firstListNum (memoryLogSize - 1) pMemory pool
  pool.addBlockToList pRawMemory firstListNum

/-- The first list above `list_num` that is not empty. -/
def Pool.findBigger (pool : Pool) (listNum : Nat) : Option Nat :=
  (List.range' (listNum + 1) (maxListsNum - (listNum + 1))).find?
    (fun i => pool.freeBlocksLists i ≠ 0)

def Pool.findNewBlockForList (pool : Pool) (listNum answer : Nat) : Option (Bool × Pool) :=
  if maxListsNum ≤ listNum then some (false, pool)
  else
    match pool.findBigger listNum with
    | some i => do
        let (result, pool) ← pool.detachFirstBlock i
        let pool ← pool.splitBlockAndAddToLists result listNum i
        return (true, pool)
    | none =>
        let sizeOfNewOsBlockLog :=
          if firstOsBlockSizeLog > listNum then firstOsBlockSizeLog else listNum
        if pool.osBlocks.length = maxOsBlockNum then some (false, pool)
        else if answer = 0 then some (false, pool)
        else do
          let pool ← pool.splitBlockAndAddToLists answer listNum sizeOfNewOsBlockLog
          return (true, { pool with
            osBlocks := ⟨answer, 2 ^ sizeOfNewOsBlockLog⟩ :: pool.osBlocks })

/-- The branch of `Alloc` that uses `malloc`. -/
def Pool.allocByMalloc (pool : Pool) (size answer : Nat) : Nat × Pool :=
  if answer = 0 then (0, pool)
  else (answer + sizeofHeader, { pool with
    memory := Function.update pool.memory answer 1
    malloced := ⟨answer, size + sizeofHeader⟩ :: pool.malloced })

/-- The branch of `Alloc` that uses the lists. -/
def Pool.allocFromLists (pool : Pool) (listNum answer : Nat) : Option (Nat × Pool) := do
  if maxListsNum + 1 ≤ listNum then none
  else
    let (found, pool) ←
      if pool.freeBlocksLists listNum = 0 then pool.findNewBlockForList listNum answer
      else some (true, pool)
    if found then
      let (header, pool) ← pool.detachFirstBlock listNum
      return (header + sizeofHeader, pool)
    else return (0, pool)

def alloc (config : Config) (pool : Pool) (size answer : Nat) : Option (Nat × Pool) := do
  let listNum ← getNextPowerOfTwo ((size + sizeofHeader) % 2 ^ 64)
  if config.useMallocThreshold ∧ mallocThreshold ≤ size then
    return pool.allocByMalloc size answer
  else pool.allocFromLists listNum answer

/-- The function of the standard library. -/
def Pool.cfree (pool : Pool) (p : Nat) : Option Pool :=
  if pool.malloced.any (fun region => region.start = p) then
    some { pool with malloced := pool.malloced.eraseP fun region => region.start = p }
  else none

def free (config : Config) (pool : Pool) (p : Nat) : Option Pool :=
  if p = 0 then some pool
  else
    let header := p - sizeofHeader
    if config.useMallocThreshold ∧ pool.memory header ≠ 0 then pool.cfree header
    else pool.addBlockToList header (pool.memory (header + 1)).toNat

/-! ## A program that uses the pool -/

/-- A pointer returned by `Alloc`, for the size asked for. -/
structure Block where
  pointer : Nat
  size : Nat
  /-- none if it came from `malloc` -/
  listNum : Option Nat
deriving DecidableEq

structure State where
  pool : Pool
  live : List Block

inductive Event
  | alloc (size answer : Nat)
  /-- `Free` for the `index`-th of the live pointers -/
  | free (index : Nat)
  /-- The program writes to a block. -/
  | write (place : Nat) (value : UInt8)

/-- Where `Alloc` takes a block of some size from. -/
def source (config : Config) (size : Nat) : Option Nat :=
  if config.useMallocThreshold ∧ mallocThreshold ≤ size then none
  else getNextPowerOfTwo (size + sizeofHeader)

/-- The bytes that the system is asked for, if it is. -/
def systemSize (config : Config) (size : Nat) : Nat :=
  match source config size with
  | none => size + sizeofHeader
  | some listNum => 2 ^ (max firstOsBlockSizeLog listNum)

/-- What the system may answer: `NULL` or memory that is not in use. -/
def Answers (pool : Pool) (size answer : Nat) : Prop :=
  answer = 0 ∨ answer + size ≤ 2 ^ 64 ∧
    ∀ region ∈ pool.osBlocks ++ pool.malloced, Extent.Apart ⟨answer, size⟩ region

def Enabled (config : Config) (state : State) : Event → Prop
  | .alloc size answer =>
      size + sizeofHeader ≤ 2 ^ 32 ∧ Answers state.pool (systemSize config size) answer
  | .free index => index < state.live.length
  | .write place _ =>
      ∃ block ∈ state.live, block.pointer ≤ place ∧ place < block.pointer + block.size

def step (config : Config) (state : State) : Event → Option State
  | .alloc size answer => do
      let (pointer, pool) ← alloc config state.pool size answer
      if pointer = 0 then return { state with pool := pool }
      else return ⟨pool, ⟨pointer, size, source config size⟩ :: state.live⟩
  | .free index => do
      let block ← state.live[index]?
      let pool ← free config state.pool block.pointer
      return ⟨pool, state.live.eraseIdx index⟩
  | .write place value =>
      some { state with pool := { state.pool with
        memory := Function.update state.pool.memory place value } }

def machine (config : Config) : Machine State Event where
  Init state := ∃ memory, state = ⟨.initial memory, []⟩
  Enabled := Enabled config
  step := step config

end MallocSurvey.Winnie1

/-! # What the blocks of the pool keep

The blocks from the system are tiled by the blocks in use and the free ones. -/

namespace MallocSurvey.Winnie1

open Library

/-! ## Classes -/

theorem bitTable_spec : ∀ k < 256, ∃ log ≤ 8, bitTable[k]? = some log ∧ k < 2 ^ log ∧
    ∀ smaller < log, 2 ^ smaller ≤ k := by
  decide +kernel

/-- The table applied to the highest byte. -/
theorem bitTable_shifted {k shift : Nat} (below : k < 256 * 2 ^ shift) (above : 2 ^ shift ≤ k) :
    ∃ log, (bitTable[k >>> shift]?).map (· + shift) = some log ∧ k < 2 ^ log ∧
      ∀ smaller < log, 2 ^ smaller ≤ k := by
  have inTable : k >>> shift < 256 := by
    rw [Nat.shiftRight_eq_div_pow]
    exact Nat.div_lt_of_lt_mul (by rw [Nat.mul_comm]; exact below)
  obtain ⟨log, _, isEntry, upper, lower⟩ := bitTable_spec _ inTable
  rw [Nat.shiftRight_eq_div_pow] at upper lower
  refine ⟨log + shift, by rw [isEntry, Option.map_some], ?_, ?_⟩
  · rw [Nat.pow_add]
    exact (Nat.div_lt_iff_lt_mul (Nat.two_pow_pos shift)).mp upper
  · intro smaller isSmaller
    by_cases within : smaller < shift
    · exact Nat.le_trans (Nat.pow_le_pow_right Nat.two_pos (Nat.le_of_lt within)) above
    · obtain ⟨rest, rfl⟩ := Nat.exists_eq_add_of_le (Nat.le_of_not_lt within)
      rw [Nat.add_comm, Nat.pow_add]
      exact (Nat.le_div_iff_mul_le (Nat.two_pow_pos shift)).mp (lower rest (by omega))

/-- The logarithm of the least power of two that is not below the size. -/
theorem getNextPowerOfTwo_spec {size : Nat} (positive : 0 < size) (bound : size ≤ 2 ^ 32) :
    ∃ log, getNextPowerOfTwo size = some log ∧ size ≤ 2 ^ log ∧
      ∀ smaller < log, 2 ^ smaller < size := by
  have decremented : (size + 2 ^ 64 - 1) % 2 ^ 64 = size - 1 := by omega
  have found : ∃ log, getNextPowerOfTwo size = some log ∧ size - 1 < 2 ^ log ∧
      ∀ smaller < log, 2 ^ smaller ≤ size - 1 := by
    unfold getNextPowerOfTwo
    rw [decremented]
    dsimp only
    split
    · next small =>
        obtain ⟨log, _, isEntry, upper, lower⟩ := bitTable_spec _ small
        exact ⟨log, isEntry, upper, lower⟩
    · split
      · exact bitTable_shifted (by omega) (by omega)
      · split
        · exact bitTable_shifted (by omega) (by omega)
        · exact bitTable_shifted (by omega) (by omega)
  obtain ⟨log, isLog, upper, lower⟩ := found
  refine ⟨log, isLog, by omega, ?_⟩
  intro smaller isSmaller
  have below := lower smaller isSmaller
  omega

/-! ## The invariant -/

def Block.header (block : Block) : Nat := block.pointer - sizeofHeader

/-- The extent of a block with its header. -/
def Block.whole (block : Block) : Extent :=
  match block.listNum with
  | some listNum => ⟨block.header, 2 ^ listNum⟩
  | none => ⟨block.header, block.size + sizeofHeader⟩

/-- The extents of the blocks from the lists. -/
def tilesOf (live : List Block) : List Extent :=
  (live.filter fun block => block.listNum.isSome).map Block.whole

/-- The extents of the blocks from `malloc`. -/
def mallocsOf (live : List Block) : List Extent :=
  (live.filter fun block => !block.listNum.isSome).map Block.whole

def freeExtent (block : FreeBlock Nat) : Extent := ⟨block.start, block.room⟩

structure FreeOk (block : FreeBlock Nat) : Prop where
  room : block.room = 2 ^ block.bin
  large : 3 ≤ block.bin
  inTable : block.bin < maxListsNum

/-- The header of a block in use says where it came from. -/
structure LiveOk (config : Config) (memory : Memory) (block : Block) : Prop where
  pointer : sizeofHeader < block.pointer
  pooled : ∀ listNum, block.listNum = some listNum →
    block.size + sizeofHeader ≤ 2 ^ listNum ∧ 3 ≤ listNum ∧ listNum < maxListsNum ∧
      memory block.header = 0 ∧ memory (block.header + 1) = UInt8.ofNat listNum
  malloced : block.listNum = none →
    config.useMallocThreshold = true ∧ memory block.header ≠ 0

structure Inv (config : Config) (pool : Pool) (live : List Block)
    (free : List (FreeBlock Nat)) : Prop where
  chained : Chained pool.memory pool.freeBlocksLists free
  regionsApart : (pool.osBlocks ++ pool.malloced).Pairwise Extent.Apart
  region : ∀ region ∈ pool.osBlocks ++ pool.malloced,
    0 < region.start ∧ 0 < region.length ∧ region.start + region.length ≤ 2 ^ 64
  tiled : Extent.Tiled pool.osBlocks (tilesOf live ++ free.map freeExtent)
  mallocs : (mallocsOf live).Perm pool.malloced
  freeOk : ∀ block ∈ free, FreeOk block
  liveOk : ∀ block ∈ live, LiveOk config pool.memory block

theorem inv_initial (config : Config) (memory : Memory) :
    Inv config (.initial memory) [] [] where
  chained := .initial
  regionsApart := .nil
  region _ member := by cases member
  tiled := .nil
  mallocs := .refl _
  freeOk _ member := by cases member
  liveOk _ member := by cases member

theorem FreeOk.word {block : FreeBlock Nat} (ok : FreeOk block) : 8 ≤ block.room := by
  rw [ok.room]
  exact Nat.pow_le_pow_right Nat.two_pos ok.large

theorem tilesOf_pooled {block : Block} {listNum : Nat} (isSome : block.listNum = some listNum)
    (live : List Block) : tilesOf (block :: live) = block.whole :: tilesOf live := by
  unfold tilesOf
  rw [List.filter_cons_of_pos (by rw [isSome]; rfl), List.map_cons]

theorem mallocsOf_pooled {block : Block} {listNum : Nat} (isSome : block.listNum = some listNum)
    (live : List Block) : mallocsOf (block :: live) = mallocsOf live := by
  unfold mallocsOf
  rw [List.filter_cons_of_neg (by rw [isSome]; exact Bool.false_ne_true)]

theorem tilesOf_malloced {block : Block} (isNone : block.listNum = none) (live : List Block) :
    tilesOf (block :: live) = tilesOf live := by
  unfold tilesOf
  rw [List.filter_cons_of_neg (by rw [isNone]; decide)]

theorem mallocsOf_malloced {block : Block} (isNone : block.listNum = none) (live : List Block) :
    mallocsOf (block :: live) = block.whole :: mallocsOf live := by
  unfold mallocsOf
  rw [List.filter_cons_of_pos (by rw [isNone]; rfl), List.map_cons]

theorem wholes_perm (live : List Block) :
    (live.map Block.whole).Perm (tilesOf live ++ mallocsOf live) := by
  unfold tilesOf mallocsOf
  rw [← List.map_append]
  exact (List.filter_append_perm _ live).symm.map _

theorem tilesOf_perm {left right : List Block} (perm : left.Perm right) :
    (tilesOf left).Perm (tilesOf right) :=
  (perm.filter _).map _

theorem mallocsOf_perm {left right : List Block} (perm : left.Perm right) :
    (mallocsOf left).Perm (mallocsOf right) :=
  (perm.filter _).map _

theorem LiveOk.wide {config : Config} {memory : Memory} {block : Block}
    (ok : LiveOk config memory block) : block.size + sizeofHeader ≤ block.whole.length := by
  unfold Block.whole
  split
  · next listNum isSome => exact (ok.pooled listNum isSome).1
  · exact Nat.le_refl _

theorem LiveOk.congr {config : Config} {memory other : Memory} {block : Block}
    (ok : LiveOk config memory block) (first : other block.header = memory block.header)
    (second : other (block.header + 1) = memory (block.header + 1)) :
    LiveOk config other block where
  pointer := ok.pointer
  pooled listNum isSome := by
    rw [first, second]
    exact ok.pooled listNum isSome
  malloced isNone := by
    rw [first]
    exact ok.malloced isNone

theorem whole_start (block : Block) : block.whole.start = block.header := by
  unfold Block.whole
  split <;> rfl

namespace Inv

variable {config : Config} {pool : Pool} {live : List Block} {free : List (FreeBlock Nat)}

theorem whole_region (inv : Inv config pool live free) {block : Block}
    (isLive : block ∈ live) : ∃ region ∈ pool.osBlocks ++ pool.malloced,
      block.whole.Inside region := by
  have member := (wholes_perm live).mem_iff.mp (List.mem_map_of_mem isLive)
  rcases List.mem_append.mp member with isTile | isMalloced
  · obtain ⟨region, isRegion, inside⟩ := inv.tiled.inside (List.mem_append_left _ isTile)
    exact ⟨region, List.mem_append_left _ isRegion, inside⟩
  · refine ⟨block.whole, List.mem_append_right _ (inv.mallocs.mem_iff.mp isMalloced), ?_⟩
    exact ⟨Nat.le_refl _, Nat.le_refl _⟩

theorem free_region (inv : Inv config pool live free) {block : FreeBlock Nat}
    (isFree : block ∈ free) : ∃ region ∈ pool.osBlocks, (freeExtent block).Inside region :=
  inv.tiled.inside (List.mem_append_right _ (List.mem_map_of_mem isFree))

/-- Blocks in use and free ones do not overlap. -/
theorem apart (inv : Inv config pool live free) :
    (live.map Block.whole ++ free.map freeExtent).Pairwise Extent.Apart := by
  obtain ⟨osApart, mallocedApart, between⟩ := List.pairwise_append.mp inv.regionsApart
  have tiles : (tilesOf live ++ free.map freeExtent).Pairwise Extent.Apart :=
    inv.tiled.apart osApart
  have mallocs : (mallocsOf live).Pairwise Extent.Apart :=
    (Extent.pairwise_perm inv.mallocs).mpr mallocedApart
  have all : ((tilesOf live ++ free.map freeExtent) ++ mallocsOf live).Pairwise
      Extent.Apart := by
    refine List.pairwise_append.mpr ⟨tiles, mallocs, ?_⟩
    intro tile isTile malloced isMalloced
    obtain ⟨region, isRegion, inside⟩ := inv.tiled.inside isTile
    exact (between region isRegion malloced (inv.mallocs.mem_iff.mp isMalloced)).inside inside
  rw [← Extent.pairwise_perm (List.Perm.trans ?_ (List.Perm.append_right _ (wholes_perm live).symm))]
  · exact all
  · rw [List.append_assoc, List.append_assoc]
    exact List.perm_append_comm.append_left _

theorem live_free_apart (inv : Inv config pool live free) {block : Block}
    (isLive : block ∈ live) {other : FreeBlock Nat} (isFree : other ∈ free) :
    block.whole.Apart (freeExtent other) :=
  (List.pairwise_append.mp inv.apart).2.2 _ (List.mem_map_of_mem isLive) _
    (List.mem_map_of_mem isFree)

theorem free_start_lt (inv : Inv config pool live free) {block : FreeBlock Nat}
    (isFree : block ∈ free) : block.start + block.room ≤ 2 ^ 64 := by
  obtain ⟨region, isRegion, inside⟩ := inv.free_region isFree
  have bound := (inv.region region (List.mem_append_left _ isRegion)).2.2
  have above := inside.2
  simp only [freeExtent] at above
  omega

/-- Bytes that hold no link and no header may change. -/
theorem setMemory (inv : Inv config pool live free) {memory : Memory}
    (links : ∀ block ∈ free, ∀ place, block.start ≤ place → place < block.start + 8 →
      memory place = pool.memory place)
    (headers : ∀ block ∈ live, memory block.header = pool.memory block.header ∧
      memory (block.header + 1) = pool.memory (block.header + 1)) :
    Inv config { pool with memory := memory } live free :=
  { inv with
    chained := inv.chained.congr fun block member => loadPointer_congr (links block member)
    liveOk := fun block member =>
      (inv.liveOk block member).congr (headers block member).1 (headers block member).2 }

end Inv

end MallocSurvey.Winnie1
