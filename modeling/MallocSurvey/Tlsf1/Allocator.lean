import MallocSurvey.Library.ByteMemory
import MallocSurvey.Library.CellList
import MallocSurvey.Tlsf1.Mapping

/-! # The functions of `tlsf1/tlsf.c`

Block headers are in byte memory, the external ones as well. The macros of
`sys/queue.h` work on the list of the external headers. `answer` is what `malloc`
returns if it is called, zero for `NULL`. Assertions are compiled out, as in the
default build. A dereference of `NULL`, an index outside `map` and an undefined shift
are `none`. -/

namespace MallocSurvey.Tlsf1

open Library

/-- The members of `tlsf_blk_t`; `addr` and `prevblk` share their place. -/
inductive Field
  | len
  | addr
  | next
  | prev
deriving DecidableEq

def Field.offset : Field → Nat
  | .len => 0
  | .addr => 8
  | .next => 16
  | .prev => 24

/-- `TLSF_BLKHDR_LEN` -/
def blkHdrLen : Nat := Field.next.offset

structure Tlsf where
  baseptr : Nat
  size : Nat
  free : Nat
  blkHdrLen : Nat
  blklist : List Nat
  l1Free : BitVec 64
  l2Free : Nat → BitVec 64
  map : Nat × Nat → Nat
  memory : Memory

namespace Tlsf

def field (tlsf : Tlsf) (blk : Nat) (name : Field) : Nat :=
  loadPointer tlsf.memory (blk + name.offset)

def setField (tlsf : Tlsf) (blk : Nat) (name : Field) (value : Nat) : Tlsf :=
  { tlsf with memory := storePointer tlsf.memory (blk + name.offset) value }

def blockLength (tlsf : Tlsf) (blk : Nat) : Nat := tlsf.field blk .len / 2 * 2

def blockFree (tlsf : Tlsf) (blk : Nat) : Bool := tlsf.field blk .len % 2 = 1

/-- `TAILQ_NEXT` -/
def tailqNext (tlsf : Tlsf) (blk : Nat) : Nat := successor tlsf.blklist blk

/-- `TAILQ_PREV` -/
def tailqPrev (tlsf : Tlsf) (blk : Nat) : Nat := successor tlsf.blklist.reverse blk

/-- `TAILQ_INSERT_AFTER` -/
def tailqInsertAfter (blklist : List Nat) (parent blk : Nat) : List Nat :=
  blklist.flatMap fun other => if other = parent then [other, blk] else [other]

def getPrevPhysblk (tlsf : Tlsf) (blk : Nat) : Nat :=
  if tlsf.blkHdrLen ≠ 0 then tlsf.field blk .addr else tlsf.tailqPrev blk

def getNextPhysblk (tlsf : Tlsf) (blk : Nat) : Nat :=
  if tlsf.blkHdrLen ≠ 0 then
    let spaceEnd := addWord tlsf.baseptr tlsf.size
    let nblkptr := addWord (addWord blk Tlsf1.blkHdrLen) (tlsf.blockLength blk)
    if nblkptr < spaceEnd then nblkptr else 0
  else tlsf.tailqNext blk

/-- The new header, null if `malloc` fails. -/
def blockHdrAlloc (tlsf : Tlsf) (parent len answer : Nat) : Nat × Tlsf :=
  if tlsf.blkHdrLen ≠ 0 then
    let plen := tlsf.blockLength parent
    let blk := addWord (addWord parent Tlsf1.blkHdrLen) plen
    let tlsf := tlsf.setField blk .addr parent
    -- the length of the new block has not been written yet
    let nblk := tlsf.getNextPhysblk blk
    let tlsf := if nblk ≠ 0 then tlsf.setField nblk .addr blk else tlsf
    (blk, tlsf.setField blk .len len)
  else if answer = 0 then (0, tlsf)
  else
    let addr := addWord (tlsf.field parent .addr) (tlsf.field parent .len)
    let tlsf := tlsf.setField answer .addr addr
    let tlsf := { tlsf with blklist := tailqInsertAfter tlsf.blklist parent answer }
    (answer, tlsf.setField answer .len len)

def blockHdrFree (tlsf : Tlsf) (blk : Nat) : Tlsf :=
  if tlsf.blkHdrLen ≠ 0 then
    let nextblk := tlsf.getNextPhysblk blk
    if nextblk ≠ 0 then tlsf.setField nextblk .addr (tlsf.field blk .addr) else tlsf
  else { tlsf with blklist := tlsf.blklist.erase blk }

/-- The bits of a class are set. -/
def setBits (tlsf : Tlsf) (fli sli : Nat) : Tlsf :=
  { tlsf with
    l1Free := tlsf.l1Free ||| 1#64 <<< fli
    l2Free := Function.update tlsf.l2Free fli (tlsf.l2Free fli ||| 1#64 <<< sli) }

/-- The second-level bit of a class is cleared, and the first-level one with the last
of its word. -/
def clearBits (tlsf : Tlsf) (fli sli : Nat) : Tlsf :=
  let word := tlsf.l2Free fli &&& ~~~(1#64 <<< sli)
  { tlsf with
    l1Free := if word = 0#64 then tlsf.l1Free &&& ~~~(1#64 <<< fli) else tlsf.l1Free
    l2Free := Function.update tlsf.l2Free fli word }

/-- The block becomes the first one of a class. -/
def linkFirst (tlsf : Tlsf) (blk : Nat) (index : Nat × Nat) : Tlsf :=
  let head := tlsf.map index
  let linked := if head ≠ 0 then tlsf.setField head .prev blk else tlsf
  { (linked.setField blk .prev 0).setField blk .next head with
    map := Function.update tlsf.map index blk }

/-- Mark the block as free. -/
def markFree (tlsf : Tlsf) (blk : Nat) : Tlsf :=
  let len := tlsf.field blk .len
  { tlsf.setField blk .len (len ||| 1) with free := addWord tlsf.free len }

def insertBlock (tlsf : Tlsf) (blk : Nat) : Option Tlsf := do
  let index ← getMapping (tlsf.field blk .len)
  return ((tlsf.linkFirst blk index).markFree blk).setBits index.1 index.2

/-- The neighbours of the block in its list are linked to each other. -/
def unlinkNeighbours (tlsf : Tlsf) (blk : Nat) : Tlsf :=
  let next := tlsf.field blk .next
  let prev := tlsf.field blk .prev
  let linked := if next ≠ 0 then tlsf.setField next .prev prev else tlsf
  if prev ≠ 0 then linked.setField prev .next next else linked

def unlinkHead (tlsf : Tlsf) (blk : Nat) (index : Nat × Nat) : Tlsf :=
  if tlsf.map index = blk then
    { tlsf with map := Function.update tlsf.map index (tlsf.field blk .next) }
  else tlsf

/-- Clear the free flag. -/
def markUsed (tlsf : Tlsf) (blk : Nat) : Tlsf :=
  let len := tlsf.field blk .len / 2 * 2
  { tlsf.setField blk .len len with free := subWord tlsf.free len }

/-- `remove_block` for a block of the class. The bits are cleared if the block was the
last one of its list. -/
def unlinkBlock (tlsf : Tlsf) (blk : Nat) (index : Nat × Nat) : Tlsf :=
  let removed := ((tlsf.unlinkNeighbours blk).unlinkHead blk index).markUsed blk
  if removed.field blk .next = 0 then removed.clearBits index.1 index.2 else removed

/-- `remove_block`; a null target stands for the first block of the class. -/
def removeBlock (tlsf : Tlsf) (target : Nat) (index : Nat × Nat) : Option (Nat × Tlsf) :=
  let blk := if target = 0 then tlsf.map index else target
  if blk = 0 then none else some (blk, tlsf.unlinkBlock blk index)

/-- The remaining block, null if there is no header for it. -/
def splitBlock (tlsf : Tlsf) (blk size answer : Nat) : Nat × Tlsf :=
  let remsize := subWord (subWord (tlsf.blockLength blk) tlsf.blkHdrLen) size
  let tlsf := tlsf.setField blk .len size
  let (remblk, tlsf) := tlsf.blockHdrAlloc blk remsize answer
  if remblk ≠ 0 then (remblk, tlsf)
  else (0, tlsf.setField blk .len (addWord size remsize))

/-- A free block leaves its list before it is merged. -/
def removeIfFree (tlsf : Tlsf) (blk : Nat) : Option Tlsf :=
  if tlsf.blockFree blk then do
    let index ← getMapping (tlsf.blockLength blk)
    let (_, tlsf) ← tlsf.removeBlock blk index
    return tlsf
  else some tlsf

def mergeBlocks (tlsf : Tlsf) (blk blk2 : Nat) : Option Tlsf := do
  let addlen := tlsf.blockLength blk2
  let tlsf ← tlsf.removeIfFree blk
  let tlsf ← tlsf.removeIfFree blk2
  let tlsf := tlsf.setField blk .len (addWord (tlsf.field blk .len) (addWord tlsf.blkHdrLen addlen))
  return tlsf.blockHdrFree blk2

/-- `ffsl` is `__builtin_ffs`, which takes an `int`: the position of the lowest set bit
of the lower half, counted from one. -/
def ffsl (word : BitVec 64) : Nat :=
  match (List.range 32).find? fun bit => word.getLsbD bit with
  | some bit => bit + 1
  | none => 0

/-- The class that `tlsf_ext_alloc` takes a block from, if any. -/
def findClass (tlsf : Tlsf) (fli sli : Nat) : Option (Option (Nat × Nat)) :=
  let found := ffsl (tlsf.l2Free fli &&& BitVec.allOnes 64 <<< sli)
  if found ≠ 0 then some (some (fli, found - 1))
  else if 64 ≤ fli + 1 then none
  else
    let level := ffsl (tlsf.l1Free &&& BitVec.allOnes 64 <<< (fli + 1))
    if level = 0 then some none
    else
      let found := ffsl (tlsf.l2Free (level - 1))
      if found = 0 then none else some (some (level - 1, found - 1))

/-- The part of `tlsf_ext_alloc` after a class was found. -/
def takeBlock (tlsf : Tlsf) (size : Nat) (index : Nat × Nat) (answer : Nat) :
    Option (Nat × Tlsf) := do
  let (blk, tlsf) ← tlsf.removeBlock 0 index
  if subWord (tlsf.field blk .len) size ≥ mbs + tlsf.blkHdrLen then
    let (remblk, tlsf) := tlsf.splitBlock blk size answer
    if remblk ≠ 0 then
      let tlsf ← tlsf.insertBlock remblk
      return (blk, tlsf)
    else return (blk, tlsf)
  else return (blk, tlsf)

/-- Null if no block is found. -/
def extAlloc (tlsf : Tlsf) (size answer : Nat) : Option (Nat × Tlsf) := do
  let size := roundup2 size
  let target ← roundedTarget size
  let (fli, sli) ← getMapping target
  match ← tlsf.findClass fli sli with
  | none => return (0, tlsf)
  | some index => tlsf.takeBlock size index answer

def extFree (tlsf : Tlsf) (blk : Nat) : Option Tlsf := do
  let prevblk := tlsf.getPrevPhysblk blk
  let nextblk := tlsf.getNextPhysblk blk
  let mergesPrev := prevblk ≠ 0 ∧ tlsf.blockFree prevblk
  let tlsf ← if mergesPrev then tlsf.mergeBlocks prevblk blk else some tlsf
  let blk := if mergesPrev then prevblk else blk
  let mergesNext := nextblk ≠ 0 ∧ tlsf.blockFree nextblk
  let tlsf ← if mergesNext then tlsf.mergeBlocks blk nextblk else some tlsf
  tlsf.insertBlock blk

/-- `tlsf_alloc`; external headers are not allocated. -/
def alloc (tlsf : Tlsf) (size : Nat) : Option (Nat × Tlsf) := do
  let (blk, tlsf) ← tlsf.extAlloc size 0
  if blk = 0 then return (0, tlsf) else return (blk + Tlsf1.blkHdrLen, tlsf)

/-- `tlsf_free` -/
def freePtr (tlsf : Tlsf) (ptr : Nat) : Option Tlsf := tlsf.extFree (ptr - Tlsf1.blkHdrLen)

def unusedSpace (tlsf : Tlsf) : Nat := tlsf.free

/-- `sizeof(tlsf_extblk_t)` -/
def sizeofExtblk : Nat := 48

/-- The rounded size of `tlsf_create`. -/
def roundedSpace (size : Nat) : Nat := subWord (roundup2 (addWord size 1)) mbs

/-- `tlsf_create` after `calloc` has returned zeroed memory; `extblk` is the header
that is allocated if `exthdr` is set. -/
def create (memory : Memory) (baseptr size : Nat) (exthdr : Bool) (extblk : Nat) :
    Option Tlsf :=
  let size := roundedSpace size
  let tlsf : Tlsf := ⟨baseptr, size, 0, 0, [], 0#64, fun _ => 0#64, fun _ => 0, memory⟩
  if exthdr then
    let tlsf := { tlsf with memory := storeBytes memory extblk sizeofExtblk 0 }
    let tlsf := (tlsf.setField extblk .addr baseptr).setField extblk .len size
    { tlsf with blklist := [extblk] }.insertBlock extblk
  else
    let tlsf := tlsf.setField baseptr .len (subWord size Tlsf1.blkHdrLen)
    let tlsf := tlsf.setField baseptr .addr 0
    { tlsf with blkHdrLen := Tlsf1.blkHdrLen }.insertBlock baseptr

end Tlsf

end MallocSurvey.Tlsf1
