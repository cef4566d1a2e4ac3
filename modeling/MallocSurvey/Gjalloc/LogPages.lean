import MallocSurvey.Gjalloc.Page
import MallocSurvey.Library.Bits
import MallocSurvey.Library.ByteMemory
import MallocSurvey.Library.Slab
import MallocSurvey.Library.TaggedSlab
import MallocSurvey.Library.Transition

/-! # `ba_log`

The numbers of blocks and the products that make an offset have 32 bits. -/

namespace MallocSurvey.Gjalloc

open Library

/-- `sizeof(struct ba_log_page)`, which is a `ba_page_header`. -/
def logPageSize : Nat := 16

structure LogHeader where
  first : Nat
  used : Nat
deriving DecidableEq

structure Log where
  l : Layout
  size : Nat
  pages : Nat → Nat
  /-- The headers within the pages. -/
  header : Nat → LogHeader
  memory : Words

def logOffset (blockSize blocks : Nat) : Nat :=
  logPageSize + (blocks + 2 ^ 32 - 1) % 2 ^ 32 * blockSize % 2 ^ 32

namespace Layout

variable (l : Layout)

/-- `BA_BLOCKN` of a `ba_log_page` -/
def logBlockN (p n : Nat) : Nat := p + logPageSize + n * l.blockSize

def baDoubleLayout : Layout :=
  let blocks := l.blocks * 2 % 2 ^ 32
  { l with blocks := blocks, offset := logOffset l.blockSize blocks }

def baHalfLayout : Layout :=
  let blocks := l.blocks / 2
  { l with blocks := blocks, offset := logOffset l.blockSize blocks }

end Layout

namespace Log

variable (a : Log)

/-- `answer` is what `malloc` returns. -/
def baAllocLogPage (answer : Nat) : Option Log :=
  if answer = 0 then none
  else
    let first := a.l.logBlockN answer 0
    some { a with
      header := Function.update a.header answer ⟨first, 0⟩
      memory := Function.update a.memory first baOne }

def baLogInit (blockSize blocks answer : Nat) (memory : Words) : Option Log := do
  let blocks := roundUp32 blocks
  let l : Layout := ⟨logOffset blockSize blocks, blockSize, blocks⟩
  let a : Log := ⟨l, 0, fun _ => 0, fun _ => ⟨0, 0⟩, memory⟩
  let a ← a.baAllocLogPage answer
  return { a with pages := Function.update a.pages 0 answer }

/-- The first free block of a page is taken: the block after it, and memory. -/
def nextFree (p ptr : Nat) : Nat × Words :=
  if a.memory ptr = baOne then
    let first := ptr + a.l.blockSize
    (first, Function.update a.memory first (if first = a.l.lastBlock p then 0 else 1))
  else (a.memory ptr, a.memory)

def baLogAlloc (answer : Nat) : Option (Nat × Log) :=
  let p := a.pages a.size
  let ptr := (a.header p).first
  let (first, memory) := a.nextFree p ptr
  let taken := { a with
    header := Function.update a.header p ⟨first, (a.header p).used + 1⟩
    memory := memory }
  if first = 0 then do
    let grown ← { taken with l := a.l.baDoubleLayout }.baAllocLogPage answer
    return (ptr, { grown with
      size := a.size + 1
      pages := Function.update a.pages (a.size + 1) answer })
  else some (ptr, taken)

/-- The search of `ba_log_free` from page `i` downwards. -/
def findPage (pages : Nat → Nat) (ptr : Nat) : Nat → Layout → Option Nat
  | 0, l => if l.checkPtr (pages 0) ptr then some 0 else none
  | i + 1, l =>
      if l.checkPtr (pages (i + 1)) ptr then some (i + 1)
      else findPage pages ptr i l.baHalfLayout

/-- The loop that frees pages, with page `i` on top. A block must be free below. -/
def dropPages : Nat → Log → Log
  | 0, a => { a with size := 0 }
  | i + 1, a =>
      if (a.header (a.pages (i + 1))).used = 0 ∧ (a.header (a.pages i)).first ≠ 0 then
        dropPages i { a with
          pages := Function.update a.pages (i + 1) 0
          l := a.l.baHalfLayout }
      else { a with size := i + 1 }

def baLogFree (ptr : Nat) : Option Log := do
  let i ← findPage a.pages ptr a.size a.l
  let p := a.pages i
  let h : LogHeader := ⟨ptr, (a.header p).used - 1⟩
  let freed := { a with
    memory := Function.update a.memory ptr (a.header p).first
    header := Function.update a.header p h }
  if h.used = 0 ∧ i = a.size then return dropPages i freed else return freed

end Log

/-! ## A program that uses the allocator -/

structure LogState where
  log : Log
  live : List Nat

inductive LogEvent
  /-- with what `malloc` returns if it is asked for a page -/
  | baLogAlloc (answer : Nat)
  /-- `ba_log_free` of the `index`-th of the live blocks -/
  | baLogFree (index : Nat)
  /-- The program writes to a block. -/
  | write (place value : Nat)

/-- The blocks of a page. -/
def Log.blocksOf (a : Log) (k : Nat) : Nat := a.l.blocks / 2 ^ (a.size - k)

def logPageBytes (blockSize blocks : Nat) : Nat := logPageSize + blockSize * blocks

/-- The last free block of the current page is taken. -/
def Log.Fills (a : Log) : Prop :=
  (a.nextFree (a.pages a.size) (a.header (a.pages a.size)).first).1 = 0

instance (a : Log) : Decidable a.Fills := inferInstanceAs (Decidable (_ = _))

/-- There are at most sixteen pages of less than 2^32 bytes, and `malloc` returns null or
memory that is not in use. -/
def LogState.Enabled (state : LogState) : LogEvent → Prop
  | .baLogAlloc answer => state.log.Fills →
      state.log.size + 1 < 16 ∧
        logPageBytes state.log.l.blockSize (2 * state.log.l.blocks) < 2 ^ 32 ∧
        (answer = 0 ∨ ∀ k ≤ state.log.size,
          Library.Apart (state.log.pages k) (logPageBytes state.log.l.blockSize (state.log.blocksOf k))
            answer (logPageBytes state.log.l.blockSize (2 * state.log.l.blocks)))
  | .baLogFree index => index < state.live.length
  | .write place _ =>
      ∃ block ∈ state.live, block ≤ place ∧ place < block + state.log.l.blockSize

def LogState.step (state : LogState) : LogEvent → Option LogState
  | .baLogAlloc answer => do
      let (ptr, log) ← state.log.baLogAlloc answer
      return ⟨log, ptr :: state.live⟩
  | .baLogFree index => do
      let ptr ← state.live[index]?
      let log ← state.log.baLogFree ptr
      return ⟨log, state.live.eraseIdx index⟩
  | .write place value =>
      some { state with log := { state.log with
        memory := Function.update state.log.memory place value } }

/-- The blocks of the first page. -/
def firstBlocks (blocks : Nat) : Nat := 2 ^ (Nat.log2 blocks + 1)

def logMachine (blockSize blocks : Nat) : Machine LogState LogEvent where
  Init state := ∃ answer memory,
    Log.baLogInit blockSize blocks answer memory = some state.log ∧ state.live = []
  Enabled := LogState.Enabled
  step := LogState.step

end MallocSurvey.Gjalloc

/-! # The pages of a `ba_log`

Page `k` has `first * 2 ^ k` blocks. -/

namespace MallocSurvey.Gjalloc

open Library

/-! ## Layouts -/

/-- The layout of pages of some blocks, unless it overflows. -/
def logLayout (blockSize blocks : Nat) : Layout :=
  ⟨logPageSize + (blocks - 1) * blockSize, blockSize, blocks⟩

theorem roundUp32_eq {v : Nat} (nonzero : v ≠ 0) (small : v < 2 ^ 31) :
    roundUp32 v = firstBlocks v := by
  have smeared := (Smeared.one v).double.double.double.double.double
  have all := smeared.eq_two_pow_sub_one nonzero (Nat.lt_trans small (by decide))
  have log := (Nat.log2_lt nonzero).mpr small
  have bound : 2 ^ (v.log2 + 1) < 2 ^ 32 := Nat.pow_lt_pow_right (by decide) (by omega)
  have positive := Nat.two_pow_pos (v.log2 + 1)
  have isRounded : roundUp32 v = (2 ^ (v.log2 + 1) - 1 + 1) % 2 ^ 32 :=
    congrArg (fun smear => (smear + 1) % 2 ^ 32) all
  unfold firstBlocks
  rw [isRounded, Nat.sub_add_cancel positive, Nat.mod_eq_of_lt bound]

theorem two_le_firstBlocks (v : Nat) : 2 ≤ firstBlocks v := by
  unfold firstBlocks
  rw [Nat.pow_succ]
  have positive := Nat.two_pow_pos v.log2
  omega

theorem le_firstBlocks (v : Nat) : v ≤ firstBlocks v := Nat.le_of_lt Nat.lt_log2_self

variable {blockSize blocks : Nat}

theorem logOffset_eq (positive : 0 < blocks) (wide : 0 < blockSize)
    (fits : logPageBytes blockSize blocks < 2 ^ 32) :
    logOffset blockSize blocks = (logLayout blockSize blocks).offset := by
  unfold logPageBytes at fits
  have count : blocks ≤ blockSize * blocks := Nat.le_mul_of_pos_left blocks wide
  have last : (blocks - 1) * blockSize ≤ blockSize * blocks := by
    rw [Nat.mul_comm blockSize]
    exact Nat.mul_le_mul_right _ (Nat.sub_le _ _)
  have isLast : (blocks + 2 ^ 32 - 1) % 2 ^ 32 = blocks - 1 := by omega
  unfold logOffset logLayout
  dsimp only
  rw [isLast, Nat.mod_eq_of_lt (show (blocks - 1) * blockSize < 2 ^ 32 by omega)]

theorem baDoubleLayout_eq (positive : 0 < blocks) (wide : 0 < blockSize)
    (fits : logPageBytes blockSize (2 * blocks) < 2 ^ 32) :
    (logLayout blockSize blocks).baDoubleLayout = logLayout blockSize (2 * blocks) := by
  have count : 2 * blocks ≤ blockSize * (2 * blocks) := Nat.le_mul_of_pos_left _ wide
  have isDouble : blocks * 2 % 2 ^ 32 = 2 * blocks := by
    unfold logPageBytes at fits
    omega
  have offset := logOffset_eq (show 0 < 2 * blocks by omega) wide fits
  unfold Layout.baDoubleLayout
  change (⟨logOffset blockSize (blocks * 2 % 2 ^ 32), blockSize, blocks * 2 % 2 ^ 32⟩ : Layout) = _
  rw [isDouble, offset]
  rfl

theorem baHalfLayout_eq (positive : 0 < blocks) (wide : 0 < blockSize)
    (fits : logPageBytes blockSize (2 * blocks) < 2 ^ 32) :
    (logLayout blockSize (2 * blocks)).baHalfLayout = logLayout blockSize blocks := by
  have isHalf : 2 * blocks / 2 = blocks := Nat.mul_div_cancel_left _ (by decide)
  have below : logPageBytes blockSize blocks < 2 ^ 32 := by
    have less := Nat.mul_le_mul_left blockSize (show blocks ≤ 2 * blocks by omega)
    unfold logPageBytes at *
    omega
  have offset := logOffset_eq positive wide below
  unfold Layout.baHalfLayout
  change (⟨logOffset blockSize (2 * blocks / 2), blockSize, 2 * blocks / 2⟩ : Layout) = _
  rw [isHalf, offset]
  rfl

theorem logPageBytes_mono {fewer : Nat} (le : fewer ≤ blocks) :
    logPageBytes blockSize fewer ≤ logPageBytes blockSize blocks :=
  Nat.add_le_add_left (Nat.mul_le_mul_left blockSize le) logPageSize

/-! ## Pages -/

/-- The blocks of a page. -/
def cellsOf (pages : Nat → Nat) (blockSize first k : Nat) : List Nat :=
  run (pages k + logPageSize) (first * 2 ^ k) blockSize

/-- The blocks of a page that are in use. -/
def liveIn (pages : Nat → Nat) (blockSize first : Nat) (live : List Nat) (k : Nat) : List Nat :=
  live.filter fun block => block ∈ cellsOf pages blockSize first k

structure PageOk (pages : Nat → Nat) (blockSize first : Nat) (header : Nat → LogHeader)
    (memory : Words) (live : List Nat) (k : Nat) : Prop where
  nonzero : pages k ≠ 0
  used : (header (pages k)).used = (liveIn pages blockSize first live k).length
  slab : ∃ free fresh, TaggedSlab memory (pages k + logPageSize) blockSize (first * 2 ^ k)
    (header (pages k)).first (liveIn pages blockSize first live k) free fresh

/-- The pages up to `size`, of which every block in use is from one. -/
structure PagesInv (pages : Nat → Nat) (blockSize first : Nat) (header : Nat → LogHeader)
    (memory : Words) (size : Nat) (live : List Nat) : Prop where
  page : ∀ k ≤ size, PageOk pages blockSize first header memory live k
  apart : ∀ i ≤ size, ∀ j ≤ size, i ≠ j →
    Library.Apart (pages i) (logPageBytes blockSize (first * 2 ^ i)) (pages j)
      (logPageBytes blockSize (first * 2 ^ j))
  covered : ∀ block ∈ live, ∃ k ≤ size, block ∈ cellsOf pages blockSize first k
  nodup : live.Nodup

variable {pages : Nat → Nat} {first size : Nat} {header : Nat → LogHeader} {memory : Words}
  {live after : List Nat} {block i j k : Nat}

theorem mem_cellsOf_bounds (member : block ∈ cellsOf pages blockSize first k) :
    pages k + logPageSize ≤ block ∧
      block + blockSize ≤ pages k + logPageBytes blockSize (first * 2 ^ k) := by
  obtain ⟨above, below⟩ := run_bounds member
  refine ⟨above, ?_⟩
  unfold logPageBytes
  rwa [← Nat.add_assoc]

theorem mem_liveIn : block ∈ liveIn pages blockSize first live k ↔
    block ∈ live ∧ block ∈ cellsOf pages blockSize first k := by
  unfold liveIn
  rw [List.mem_filter, decide_eq_true_eq]

theorem liveIn_cons_self (member : block ∈ cellsOf pages blockSize first k) :
    liveIn pages blockSize first (block :: live) k =
      block :: liveIn pages blockSize first live k :=
  List.filter_cons_of_pos (decide_eq_true member)

theorem liveIn_cons_of_not_mem (absent : block ∉ cellsOf pages blockSize first k) :
    liveIn pages blockSize first (block :: live) k = liveIn pages blockSize first live k :=
  List.filter_cons_of_neg (by rwa [decide_eq_true_eq])

theorem liveIn_perm (perm : live.Perm after) :
    (liveIn pages blockSize first live k).Perm (liveIn pages blockSize first after k) :=
  perm.filter _

/-- Pages are told apart by their addresses, and a block is from one page only. -/
theorem PagesInv.other (inv : PagesInv pages blockSize first header memory size live)
    (wide : 0 < blockSize) (leftIn : i ≤ size) (rightIn : j ≤ size) (different : i ≠ j) :
    pages i ≠ pages j ∧ ∀ block ∈ cellsOf pages blockSize first i,
      block ∉ cellsOf pages blockSize first j := by
  have between := inv.apart i leftIn j rightIn different
  have width : logPageSize = 16 := rfl
  constructor
  · intro same
    unfold Library.Apart logPageBytes at between
    omega
  · intro block isLeft isRight
    have left := mem_cellsOf_bounds isLeft
    have right := mem_cellsOf_bounds isRight
    unfold Library.Apart at between
    omega

theorem PageOk.congr {otherPages : Nat → Nat} {changed : Nat → LogHeader} {other : Words}
    (ok : PageOk pages blockSize first header memory live k) (samePage : otherPages k = pages k)
    (sameHeader : changed (pages k) = header (pages k))
    (sameLive : liveIn otherPages blockSize first after k = liveIn pages blockSize first live k)
    (same : ∀ cell ∈ cellsOf pages blockSize first k,
      cell ∉ liveIn pages blockSize first live k → other cell = memory cell) :
    PageOk otherPages blockSize first changed other after k := by
  obtain ⟨nonzero, used, free, fresh, slab⟩ := ok
  refine ⟨?_, ?_, free, fresh, ?_⟩
  · rwa [samePage]
  · rw [samePage, sameHeader, sameLive]
    exact used
  · rw [samePage, sameHeader, sameLive]
    exact slab.congr same

end MallocSurvey.Gjalloc
