import MallocSurvey.Library.ByteMemory
import MallocSurvey.Library.Segregated
import MallocSurvey.Tlsf.Mapping

/-! # The functions of `tlsf/tlsf.c`

The 64-bit build. Block headers are in byte memory. A failed assertion, an index outside
the tables and an undefined shift are `none`. -/

namespace MallocSurvey.Tlsf

open Library

/-- The members of `block_header_t`. -/
inductive Field
  | prevPhysBlock
  | size
  | nextFree
  | prevFree
deriving DecidableEq

def Field.offset : Field → Nat
  | .prevPhysBlock => 0
  | .size => 8
  | .nextFree => 16
  | .prevFree => 24

/-- `control_t`. Its first member `block_null` is in the memory at the same address. -/
structure Control where
  address : Nat
  flBitmap : BitVec 32
  slBitmap : Nat → BitVec 32
  blocks : Nat × Nat → Nat
  memory : Memory

/-- `block_start_offset` -/
def blockStartOffset : Nat := Field.size.offset + 8

def blockFromPtr (ptr : Nat) : Nat := ptr - blockStartOffset

def blockToPtr (block : Nat) : Nat := block + blockStartOffset

def offsetToBlock (ptr size : Nat) : Nat := addWord .bits64 ptr size

def alignPtr (ptr align : Nat) : Nat := alignUp .bits64 ptr align

/-- The index is one of the tables. -/
def Indexed (index : Nat × Nat) : Prop :=
  index.1 < flIndexCount .bits64 ∧ index.2 < slIndexCount

instance (index : Nat × Nat) : Decidable (Indexed index) := inferInstanceAs (Decidable (_ ∧ _))

namespace Control

def field (control : Control) (block : Nat) (name : Field) : Nat :=
  loadPointer control.memory (block + name.offset)

def setField (control : Control) (block : Nat) (name : Field) (value : Nat) : Control :=
  { control with memory := storePointer control.memory (block + name.offset) value }

def blockSize (control : Control) (block : Nat) : Nat := control.field block .size / 4 * 4

def blockSetSize (control : Control) (block size : Nat) : Control :=
  control.setField block .size (size ||| control.field block .size % 4)

def blockIsLast (control : Control) (block : Nat) : Bool := control.blockSize block = 0

def blockIsFree (control : Control) (block : Nat) : Bool := control.field block .size % 2 = 1

def blockSetFree (control : Control) (block : Nat) : Control :=
  control.setField block .size (control.field block .size ||| 1)

def blockSetUsed (control : Control) (block : Nat) : Control :=
  control.setField block .size (control.field block .size / 2 * 2)

def blockIsPrevFree (control : Control) (block : Nat) : Bool :=
  control.field block .size / 2 % 2 = 1

def blockSetPrevFree (control : Control) (block : Nat) : Control :=
  control.setField block .size (control.field block .size ||| 2)

def blockSetPrevUsed (control : Control) (block : Nat) : Control :=
  control.setField block .size
    (control.field block .size / 4 * 4 + control.field block .size % 2)

def blockPrev (control : Control) (block : Nat) : Nat := control.field block .prevPhysBlock

def blockNext (control : Control) (block : Nat) : Option Nat := do
  guard (¬ control.blockIsLast block)
  return offsetToBlock (blockToPtr block)
    (subWord .bits64 (control.blockSize block) (blockHeaderOverhead .bits64))

/-- The block is linked from the next one, which is returned. -/
def blockLinkNext (control : Control) (block : Nat) : Option (Control × Nat) := do
  let next ← control.blockNext block
  return (control.setField next .prevPhysBlock block, next)

def blockMarkAsFree (control : Control) (block : Nat) : Option Control := do
  let (control, next) ← control.blockLinkNext block
  return (control.blockSetPrevFree next).blockSetFree block

def blockMarkAsUsed (control : Control) (block : Nat) : Option Control := do
  let next ← control.blockNext block
  return (control.blockSetPrevUsed next).blockSetUsed block

/-- The block is null if there is none. -/
def searchSuitableBlock (control : Control) (index : Nat × Nat) :
    Option (Nat × (Nat × Nat)) := do
  guard (Indexed index)
  match lowestBit (bitsFrom (control.slBitmap index.1) index.2) with
  | some sl => return (control.blocks (index.1, sl), (index.1, sl))
  | none =>
      match lowestBit (bitsFrom control.flBitmap (index.1 + 1)) with
      | none => return (0, index)
      | some fl =>
          guard (fl < flIndexCount .bits64)
          let sl ← lowestBit (control.slBitmap fl)
          return (control.blocks (fl, sl), (fl, sl))

/-- The head of a list moves on to the next block. -/
def setHead (control : Control) (index : Nat × Nat) (next : Nat) : Control :=
  let control := { control with blocks := Function.update control.blocks index next }
  if next = control.address then
    let slMap := clearBit (control.slBitmap index.1) index.2
    { control with
      slBitmap := Function.update control.slBitmap index.1 slMap
      flBitmap := if slMap = 0#32 then clearBit control.flBitmap index.1 else control.flBitmap }
  else control

def removeFreeBlock (control : Control) (block : Nat) (index : Nat × Nat) : Option Control := do
  guard (Indexed index)
  let prev := control.field block .prevFree
  let next := control.field block .nextFree
  guard (prev ≠ 0)
  guard (next ≠ 0)
  let control := (control.setField next .prevFree prev).setField prev .nextFree next
  return if control.blocks index = block then control.setHead index next else control

def insertFreeBlock (control : Control) (block : Nat) (index : Nat × Nat) : Option Control := do
  guard (Indexed index)
  let current := control.blocks index
  guard (current ≠ 0)
  guard (block ≠ 0)
  let control := control.setField block .nextFree current
  let control := control.setField block .prevFree control.address
  let control := control.setField current .prevFree block
  guard (blockToPtr block = alignPtr (blockToPtr block) (alignSize .bits64))
  return { control with
    blocks := Function.update control.blocks index block
    flBitmap := setBit control.flBitmap index.1
    slBitmap := Function.update control.slBitmap index.1
      (setBit (control.slBitmap index.1) index.2) }

def blockRemove (control : Control) (block : Nat) : Option Control := do
  let index ← mappingInsert .bits64 (control.blockSize block)
  control.removeFreeBlock block index

def blockInsert (control : Control) (block : Nat) : Option Control := do
  let index ← mappingInsert .bits64 (control.blockSize block)
  control.insertFreeBlock block index

def blockCanSplit (control : Control) (block size : Nat) : Bool :=
  addWord .bits64 (sizeofHeader .bits64) size ≤ control.blockSize block

/-- The remaining block is returned, which is free. -/
def blockSplit (control : Control) (block size : Nat) : Option (Control × Nat) := do
  let overhead := blockHeaderOverhead .bits64
  let remaining := offsetToBlock (blockToPtr block) (subWord .bits64 size overhead)
  let remainSize :=
    subWord .bits64 (control.blockSize block) (addWord .bits64 size overhead)
  guard (blockToPtr remaining = alignPtr (blockToPtr remaining) (alignSize .bits64))
  guard (control.blockSize block =
    addWord .bits64 (addWord .bits64 remainSize size) overhead)
  let control := control.blockSetSize remaining remainSize
  guard (blockSizeMin .bits64 ≤ control.blockSize remaining)
  let control := control.blockSetSize block size
  let control ← control.blockMarkAsFree remaining
  return (control, remaining)

/-- The flags are left as they are. -/
def blockAbsorb (control : Control) (prev block : Nat) : Option Control := do
  guard (¬ control.blockIsLast prev)
  let control := control.setField prev .size
    (addWord .bits64 (control.field prev .size)
      (addWord .bits64 (control.blockSize block) (blockHeaderOverhead .bits64)))
  let (control, _) ← control.blockLinkNext prev
  return control

def blockMergePrev (control : Control) (block : Nat) : Option (Control × Nat) := do
  if control.blockIsPrevFree block then
    let prev := control.blockPrev block
    guard (prev ≠ 0)
    guard (control.blockIsFree prev)
    let control ← control.blockRemove prev
    let control ← control.blockAbsorb prev block
    return (control, prev)
  else return (control, block)

def blockMergeNext (control : Control) (block : Nat) : Option Control := do
  let next ← control.blockNext block
  guard (next ≠ 0)
  if control.blockIsFree next then
    guard (¬ control.blockIsLast block)
    let control ← control.blockRemove next
    control.blockAbsorb block next
  else return control

def blockTrimFree (control : Control) (block size : Nat) : Option Control := do
  guard (control.blockIsFree block)
  if control.blockCanSplit block size then
    let (control, remaining) ← control.blockSplit block size
    let (control, _) ← control.blockLinkNext block
    (control.blockSetPrevFree remaining).blockInsert remaining
  else return control

def blockTrimUsed (control : Control) (block size : Nat) : Option Control := do
  guard (¬ control.blockIsFree block)
  if control.blockCanSplit block size then
    let (control, remaining) ← control.blockSplit block size
    let control ← (control.blockSetPrevUsed remaining).blockMergeNext remaining
    control.blockInsert remaining
  else return control

def blockTrimFreeLeading (control : Control) (block size : Nat) : Option (Control × Nat) := do
  if control.blockCanSplit block size then
    let (control, remaining) ←
      control.blockSplit block (subWord .bits64 size (blockHeaderOverhead .bits64))
    let (control, _) ← (control.blockSetPrevFree remaining).blockLinkNext block
    let control ← control.blockInsert block
    return (control, remaining)
  else return (control, block)

/-- The block is null if there is none. -/
def blockLocateFree (control : Control) (size : Nat) : Option (Control × Nat) := do
  if size ≠ 0 then
    let index ← mappingSearch .bits64 size
    let (block, index) ← control.searchSuitableBlock index
    if block ≠ 0 then
      guard (size ≤ control.blockSize block)
      let control ← control.removeFreeBlock block index
      return (control, block)
    else return (control, 0)
  else return (control, 0)

def blockPrepareUsed (control : Control) (block size : Nat) : Option (Control × Nat) := do
  if block ≠ 0 then
    let control ← control.blockTrimFree block size
    let control ← control.blockMarkAsUsed block
    return (control, blockToPtr block)
  else return (control, 0)

/-! ## Integrity checks -/

def insist (status : Int) (condition : Bool) : Int :=
  if condition then status else status - 1

/-- The checks of `tlsf_check` for a block of a list. -/
def checkBlock (control : Control) (index : Nat × Nat) (block : Nat) (status : Int) :
    Option Int := do
  let next ← control.blockNext block
  let class_ ← mappingInsert .bits64 (control.blockSize block)
  let status := insist status (control.blockIsFree block)
  let status := insist status (¬ control.blockIsPrevFree block)
  let status := insist status (¬ control.blockIsFree next)
  let status := insist status (control.blockIsPrevFree next)
  let status := insist status (blockSizeMin .bits64 ≤ control.blockSize block)
  return insist status (class_ = index)

/-- The blocks of a list from one on. -/
def checkList (control : Control) (index : Nat × Nat) : Nat → Nat → Int → Option Int
  | 0, _, _ => none
  | fuel + 1, block, status =>
      if block = control.address then some status
      else do
        let status ← control.checkBlock index block status
        control.checkList index fuel (control.field block .nextFree) status

/-- The checks of `tlsf_check` for a class. -/
def checkClass (control : Control) (fuel : Nat) (status : Int) (index : Nat × Nat) :
    Option Int :=
  let slList := control.slBitmap index.1
  let slMap := slList.getLsbD index.2
  let block := control.blocks index
  let status := if control.flBitmap.getLsbD index.1 then status else insist status (¬ slMap)
  if slMap then
    let status := insist status (slList ≠ 0#32)
    let status := insist status (block ≠ control.address)
    control.checkList index fuel block status
  else some (insist status (block = control.address))

/-- The order of the two loops. -/
def indices : List (Nat × Nat) :=
  (List.range (flIndexCount .bits64)).flatMap fun fl =>
    (List.range slIndexCount).map fun sl => (fl, sl)

def tlsfCheck (control : Control) (fuel : Nat) : Option Int :=
  indices.foldlM (control.checkClass fuel) 0

/-- `tlsf_walk_pool` with `integrity_walker`. -/
def walkPool (control : Control) : Nat → Nat → Bool → Int → Option Int
  | 0, _, _, _ => none
  | fuel + 1, block, prevStatus, status =>
      if block ≠ 0 ∧ ¬ control.blockIsLast block then do
        let status := insist status (prevStatus = control.blockIsPrevFree block)
        let next ← control.blockNext block
        control.walkPool fuel next (control.blockIsFree block) status
      else some status

/-- The walker is given the size it compares. -/
def tlsfCheckPool (control : Control) (fuel pool : Nat) : Option Int :=
  control.walkPool fuel (subWord .bits64 pool (blockHeaderOverhead .bits64)) false 0

/-! ## Pools -/

/-- `tlsf_size` -/
def tlsfSize : Nat := 6536

/-- Null if the pool is rejected. -/
def tlsfAddPool (control : Control) (mem bytes : Nat) : Option (Control × Nat) := do
  let size := poolBytes .bits64 bytes
  if mem % alignSize .bits64 ≠ 0 then return (control, 0)
  else if ¬ Accepted .bits64 bytes then return (control, 0)
  else
    let block := subWord .bits64 mem (blockHeaderOverhead .bits64)
    let control := ((control.blockSetSize block size).blockSetFree block).blockSetPrevUsed block
    let control ← control.blockInsert block
    let (control, next) ← control.blockLinkNext block
    return (((control.blockSetSize next 0).blockSetUsed next).blockSetPrevFree next, mem)

def tlsfRemovePool (control : Control) (pool : Nat) : Option Control := do
  let block := subWord .bits64 pool (blockHeaderOverhead .bits64)
  guard (control.blockIsFree block)
  let next ← control.blockNext block
  guard (¬ control.blockIsFree next)
  guard (control.blockSize next = 0)
  let index ← mappingInsert .bits64 (control.blockSize block)
  control.removeFreeBlock block index

/-- `control_construct` -/
def construct (memory : Memory) (mem : Nat) : Control :=
  let control : Control := ⟨mem, 0#32, fun _ => 0#32, fun _ => mem, memory⟩
  (control.setField mem .nextFree mem).setField mem .prevFree mem

/-- Null if the memory is not aligned. -/
def tlsfCreate (memory : Memory) (mem : Nat) : Option Control :=
  if mem % alignSize .bits64 ≠ 0 then none else some (construct memory mem)

/-- The pool is null if it is rejected. -/
def tlsfCreateWithPool (memory : Memory) (mem bytes : Nat) : Option (Control × Nat) := do
  let control ← tlsfCreate memory mem
  control.tlsfAddPool (mem + tlsfSize) (subWord .bits64 bytes tlsfSize)

/-! ## The main interface -/

def tlsfMalloc (control : Control) (size : Nat) : Option (Control × Nat) := do
  let adjust := adjustRequestSize .bits64 size (alignSize .bits64)
  let (control, block) ← control.blockLocateFree adjust
  control.blockPrepareUsed block adjust

/-- The aligned address in a block and the gap in front of it. -/
def alignedGap (ptr align : Nat) : Nat :=
  let gapMinimum := sizeofHeader .bits64
  let aligned := alignPtr ptr align
  let gap := subWord .bits64 aligned ptr
  if gap ≠ 0 ∧ gap < gapMinimum then
    -- the gap is too small for a block
    let offset := max (gapMinimum - gap) align
    subWord .bits64 (alignPtr (addWord .bits64 aligned offset) align) ptr
  else gap

/-- `size_with_gap` -/
def sizeWithGap (adjust align : Nat) : Nat :=
  adjustRequestSize .bits64
    (addWord .bits64 (addWord .bits64 adjust align) (sizeofHeader .bits64)) align

def tlsfMemalign (control : Control) (align size : Nat) : Option (Control × Nat) := do
  let adjust := adjustRequestSize .bits64 size (alignSize .bits64)
  let alignedSize := if align ≤ alignSize .bits64 then adjust else sizeWithGap adjust align
  let (control, block) ← control.blockLocateFree alignedSize
  if block ≠ 0 then
    let gap := alignedGap (blockToPtr block) align
    if gap ≠ 0 then
      guard (sizeofHeader .bits64 ≤ gap)
      let (control, block) ← control.blockTrimFreeLeading block gap
      control.blockPrepareUsed block adjust
    else control.blockPrepareUsed block adjust
  else control.blockPrepareUsed 0 adjust

def tlsfFree (control : Control) (ptr : Nat) : Option Control := do
  if ptr ≠ 0 then
    let block := blockFromPtr ptr
    guard (¬ control.blockIsFree block)
    let control ← control.blockMarkAsFree block
    let (control, block) ← control.blockMergePrev block
    let control ← control.blockMergeNext block
    control.blockInsert block
  else return control

/-- `memcpy` -/
def copy (control : Control) (target source length : Nat) : Control :=
  { control with
    memory := fun place =>
      if target ≤ place ∧ place < target + length then
        control.memory (source + (place - target))
      else control.memory place }

/-- `tlsf_realloc` if the block has to be moved. -/
def reallocMove (control : Control) (ptr size cursize : Nat) : Option (Control × Nat) := do
  let (control, moved) ← control.tlsfMalloc size
  if moved ≠ 0 then
    let control := control.copy moved ptr (min cursize size)
    let control ← control.tlsfFree ptr
    return (control, moved)
  else return (control, 0)

def tlsfRealloc (control : Control) (ptr size : Nat) : Option (Control × Nat) := do
  if ptr ≠ 0 ∧ size = 0 then
    let control ← control.tlsfFree ptr
    return (control, 0)
  else if ptr = 0 then control.tlsfMalloc size
  else
    let block := blockFromPtr ptr
    let next ← control.blockNext block
    let cursize := control.blockSize block
    let combined :=
      addWord .bits64 (addWord .bits64 cursize (control.blockSize next))
        (blockHeaderOverhead .bits64)
    let adjust := adjustRequestSize .bits64 size (alignSize .bits64)
    guard (¬ control.blockIsFree block)
    if cursize < adjust ∧ (¬ control.blockIsFree next ∨ combined < adjust) then
      control.reallocMove ptr size cursize
    else
      let control ←
        if cursize < adjust then do
          let control ← control.blockMergeNext block
          control.blockMarkAsUsed block
        else some control
      let control ← control.blockTrimUsed block adjust
      return (control, ptr)

end Control

end MallocSurvey.Tlsf
