import Mathlib.Data.BitVec
import Mathlib.Data.Option.Basic
import Mathlib.Logic.Function.Basic

/-! # `fc_malloc/fc_heap.hpp`

The heap of one thread: two pools with a bit for each slot, and pages of blocks with a header
each, the free ones in bins. Pointers are addresses, and 0 is null. An assertion that fails and a
write through null have no result. -/

namespace MallocSurvey.FcMalloc.FcHeap

/-- `PAGE_SIZE` -/
def pageSizeMax : Nat := 2 * 1024 * 1024

/-- `sizeof(block_header)` -/
def sizeofHeader : Nat := 8

/-- `NUM_BINS` -/
def numBins : Nat := 32

/-- `flag_enum` -/
def queued : BitVec 8 := 1#8

def active : BitVec 8 := 4#8

structure BlockHeader where
  /-- size of previous header. -/
  prevSize : Int
  /-- offset to next, negative indicates tail; it has 24 bits -/
  size : Int
  flags : BitVec 8
deriving DecidableEq

/-- The block is serving as a linked-list node. -/
structure QueueState where
  qnext : Nat
  qprev : Nat

def assert (condition : Prop) [Decidable condition] : Option Unit :=
  if condition then some () else none

/-- What a field of 24 bits keeps of a number. -/
def field24 (value : Int) : Int := value.bmod (2 ^ 24)

/-- `LOG2` -/
def log2 (size : Nat) : Nat := size.log2

/-- `CHECK_SIZE` -/
def checkSize (size : Nat) : Option Unit := assert (size ≠ 0 ∧ size &&& (size - 1) = 0)

/-! ## The pools -/

/-- A region of slots of `width` bytes. A bit that is set is a free slot. -/
structure Pool where
  data : Nat
  state : Nat → BitVec 64
  /-- index of the word that is scanned next -/
  scanPos : Nat

/-- The number of words in the state of a pool. -/
def poolWords (width : Nat) : Nat := pageSizeMax / width / 64

/-- `LZERO` of a word that is not 0 -/
def lzero (word : BitVec 64) : Nat := 63 - word.toNat.log2

namespace Pool

/-- The bit of a slot, as words count them from the top. -/
def mask (bit : Nat) : BitVec 64 := 1#64 <<< (63 - bit)

/-- The loop over the words: where it stops, and whether the word has a bit. -/
def scan (words : Nat) (state : Nat → BitVec 64) : Nat → Nat → Nat × Bool
  | 0, pos => (pos, false)
  | left + 1, pos =>
      if state pos = 0#64 then scan words state left (if pos + 1 = words then 0 else pos + 1)
      else (pos, true)

/-- `alloc32` and `alloc64`, which have no slot if no word has a bit -/
def alloc (width : Nat) (pool : Pool) : Option Nat × Pool :=
  match scan (poolWords width) pool.state (poolWords width) pool.scanPos with
  | (pos, false) => (none, { pool with scanPos := pos })
  | (pos, true) =>
      let bit := lzero (pool.state pos)
      (some (pool.data + (pos * 64 + bit) * width),
        { pool with
          scanPos := pos
          state := Function.update pool.state pos (pool.state pos ^^^ mask bit) })

/-- `free32` and `free64`, which tell whether the address is theirs -/
def free (width : Nat) (pool : Pool) (p : Nat) : Option Pool :=
  if pool.data ≤ p ∧ p < pool.data + pageSizeMax then
    let offset := (p - pool.data) / width
    let idx := offset / 64
    some { pool with
      state := Function.update pool.state idx (pool.state idx ^^^ mask (offset % 64)) }
  else none

end Pool

/-! ## Blocks -/

structure Heap where
  header : Nat → BlockHeader
  /-- the payload of a block, as a node -/
  node : Nat → QueueState
  /-- the head of every stack -/
  bins : Nat → Nat
  pool32 : Pool
  pool64 : Pool
  /-- the pages that the system has given -/
  pages : List Nat

namespace Heap

variable (heap : Heap)

def setHeader (block : Nat) (header : BlockHeader) : Heap :=
  { heap with header := Function.update heap.header block header }

def setNode (block : Nat) (node : QueueState) : Heap :=
  { heap with node := Function.update heap.node block node }

def setBin (bin block : Nat) : Heap :=
  { heap with bins := Function.update heap.bins bin block }

def setSize (block : Nat) (size : Int) : Heap :=
  heap.setHeader block { heap.header block with size := field24 size }

def setPrevSize (block : Nat) (size : Int) : Heap :=
  heap.setHeader block { heap.header block with prevSize := size }

def setFlags (block : Nat) (flags : BitVec 8) : Heap :=
  heap.setHeader block { heap.header block with flags := flags }

def setQnext (block next : Nat) : Heap :=
  heap.setNode block { heap.node block with qnext := next }

def setQprev (block prev : Nat) : Heap :=
  heap.setNode block { heap.node block with qprev := prev }

/-- `size()`, with the header -/
def size (block : Nat) : Nat := (heap.header block).size.natAbs

def next (block : Nat) : Option Nat :=
  if (heap.header block).size ≤ 0 then none else some (block + heap.size block)

def prev (block : Nat) : Option Nat :=
  if (heap.header block).prevSize ≤ 0 then none
  else some (block - (heap.header block).prevSize.toNat)

def head : Nat → Nat → Option Nat
  | 0, _ => none
  | steps + 1, block =>
      match heap.prev block with
      | none => some block
      | some p => head steps p

def tail : Nat → Nat → Option Nat
  | 0, _ => none
  | steps + 1, block =>
      match heap.next block with
      | none => some block
      | some n => tail steps n

/-- A page has fewer blocks than that. -/
def steps : Nat := pageSizeMax

/-- `page_size` -/
def pageSize (block : Nat) : Option Nat := do
  let t ← heap.tail steps block
  let h ← heap.head steps block
  return t - h + heap.size t

/-- `assert( page_size() == PAGE_SIZE )` -/
def assertPage (block : Nat) : Option Unit :=
  assert (heap.pageSize block = some pageSizeMax)

/-- `if( old_nxt ) old_nxt->_prev_size = size` -/
def setPrevSizeOf (size : Int) : Option Nat → Heap
  | none => heap
  | some block => heap.setPrevSize block size

/-- The block without its end. -/
def shorten (block sz : Nat) : Heap := heap.setSize block (heap.size block - sz)

/-- The headers after a block has been made at the end of this block. -/
def cutAt (block sz nxt : Nat) : Heap :=
  let shorter := heap.shorten block sz
  let made := (shorter.setPrevSize nxt (shorter.header block).size).setSize nxt
    (if (heap.header block).size < 0 then -sz else sz)
  made.setPrevSizeOf (made.header nxt).size (heap.next block)

/-- Creates a new block of size S at the end of this block. -/
def split (block sz : Nat) : Option (Nat × Heap) := do
  assert (32 ≤ sz)
  assert (32 ≤ heap.size block)
  assert (sz ≤ heap.size block - 32)
  heap.assertPage block
  assert ((heap.header block).size ≠ 0xbad)
  checkSize sz
  let oldSize := (heap.header block).size
  let oldNext := heap.next block
  let shorter := heap.shorten block sz
  assert ((shorter.header block).size ≠ 0)
  let nxt ← shorter.next block
  let linked := heap.cutAt block sz nxt
  assert (linked.size block + linked.size nxt = oldSize.natAbs)
  assert (linked.next nxt = oldNext)
  assert (linked.prev nxt = some block)
  assert (linked.next block = some nxt)
  linked.assertPage block
  linked.assertPage nxt
  assert (nxt ≠ block)
  return (nxt, linked.setFlags nxt 0#8)

/-- The assertions after a merge. -/
def assertMerged (block : Nat) : Option Nat → Option Unit
  | none => some ()
  | some n => do
      assert (heap.size block / 8 = (n - block) / 8)
      assert ((heap.header n).prevSize = heap.size block)
      heap.assertPage block

/-- The block with the size of the next one added. -/
def grow (block curNext : Nat) : Heap :=
  heap.setSize block ((heap.header block).size + heap.size curNext)

/-- The headers after this block has taken the next one. -/
def absorb (block curNext : Nat) : Heap :=
  let grown := heap.grow block curNext
  if 0 < (grown.header curNext).size then
    grown.setPrevSizeOf (grown.size block) (grown.next block)
  else grown.setSize block (-(grown.header block).size)

/-- `merge_next`, which returns its block -/
def mergeNext (block : Nat) : Option Heap := do
  assert ((heap.header block).size ≠ 0xbad)
  match heap.next block with
  | none => return heap
  | some curNext =>
      assert ((heap.header curNext).size ≠ 0xbad)
      assert (0 < heap.size curNext)
      assert (0 < (heap.header block).size)
      assert (((heap.grow block curNext).header block).size ≠ 0)
      let whole := heap.absorb block curNext
      assert ((whole.header block).size ≠ 0)
      -- the assertion assigns
      let marked := whole.setSize curNext 0xbad
      assert (heap.size block < marked.size block)
      marked.assertMerged block (marked.next block)
      return marked

def isActive (block : Nat) : Bool := (heap.header block).flags &&& active ≠ 0#8

def isQueued (block : Nat) : Bool := (heap.header block).flags &&& queued ≠ 0#8

def setActive (block : Nat) (s : Bool) : Heap :=
  heap.setFlags block
    (if s then (heap.header block).flags ||| active else (heap.header block).flags &&& ~~~active)

/-- Anytime the state of a block changes to queued, its node is reset. -/
def setQueued (block : Nat) (s : Bool) : Heap :=
  let changed := heap.setFlags block
    (if s then (heap.header block).flags ||| queued else (heap.header block).flags &&& ~~~queued)
  if changed.isQueued block then changed.setNode block ⟨0, 0⟩ else changed

/-- Removes this node from any queue it is in. -/
def dequeue (block : Nat) : Heap :=
  let pre := (heap.node block).qprev
  let nxt := (heap.node block).qnext
  let skipped := if pre ≠ 0 then heap.setQnext pre nxt else heap
  let linked := if nxt ≠ 0 then skipped.setQprev nxt pre else skipped
  linked.setQueued block false

/-! ## Bins -/

/-- `block_stack::push` -/
def push (bin h : Nat) : Heap :=
  let head := heap.bins bin
  let pushed := heap.setQnext h head
  let linked := if head ≠ 0 then pushed.setQprev head h else pushed
  linked.setBin bin h

/-- `block_stack::pop` -/
def pop (bin : Nat) : Nat × Heap :=
  let head := heap.bins bin
  if head ≠ 0 then
    let rest := (heap.node head).qnext
    let popped := heap.setBin bin rest
    (head, if rest ≠ 0 then popped.setQprev rest 0 else popped)
  else (0, heap)

/-! ## The heap -/

/-- A free neighbour leaves its bin. -/
def unqueue (block : Nat) : Heap :=
  let bin := log2 (heap.size block)
  if heap.bins bin = block then (heap.pop bin).2.setQueued block false
  else heap.dequeue block

/-- The block behind is merged if it is free. -/
def takeNext (h : Nat) : Option Nat → Option Heap
  | none => some heap
  | some nxt =>
      if heap.isActive nxt = false ∧ heap.isQueued nxt = true then (heap.unqueue nxt).mergeNext h
      else some heap

/-- The block in front is merged if it is free; the pointer is the new block. -/
def takePrev (h : Nat) : Option Nat → Option (Nat × Heap)
  | none => some (h, heap)
  | some pre =>
      if heap.isActive pre = false ∧ heap.isQueued pre = true then do
        let merged ← (heap.unqueue pre).mergeNext pre
        return (pre, merged)
      else some (h, heap)

/-- `operator delete` if the block is a page, else the block is put into its bin. -/
def keepOrDelete (h : Nat) : Heap :=
  if heap.size h = pageSizeMax then { heap with pages := heap.pages.erase h }
  else
    let idle := (heap.setActive h false).setQueued h true
    idle.push (log2 (idle.size h)) h

/-- `fc_heap::free` -/
def free (h : Nat) : Option Heap := do
  assert (h ≠ 0)
  assert (heap.isActive h = true)
  assert ((heap.header h).size ≠ 0)
  assert (heap.size h < pageSizeMax)
  let pre := heap.prev h
  let nxt := heap.next h
  let joined ← heap.takeNext h nxt
  let (whole, merged) ← joined.takePrev h pre
  return merged.keepOrDelete whole

/-- The end of a block is handed out, and the rest is freed. -/
def carve (h s : Nat) : Option (Nat × Heap) := do
  let (tail, cut) ← heap.split h (s % 2 ^ 32)
  assert ((cut.header h).size ≠ 0)
  let freed ← (cut.setActive h true).free h
  return (tail, freed.setActive tail true)

/-- A block from a bin is handed out. -/
def serve (h s : Nat) : Option (Nat × Heap) := do
  assert ((heap.header h).size ≠ 0)
  assert ((heap.header h).size ≠ 0xbad)
  assert (heap.isQueued h = true)
  let taken := heap.setQueued h false
  if (taken.size h + 2 ^ 32 - 32) % 2 ^ 32 < s then return (h, taken.setActive h true)
  else taken.carve h s

/-- `new block_header()`, with the answer of `malloc` -/
def newPage (answer : Nat) : Option Heap :=
  if answer = 0 then none
  else do
    let given := { heap with pages := answer :: heap.pages }
    let page := given.setHeader answer ⟨0, field24 (-pageSizeMax), 0#8⟩
    page.assertPage answer
    return page

/-- The loop of `fc_heap::alloc` over the bins, and the new page after it. -/
def search (answer s : Nat) : Nat → Nat → Option (Nat × Heap)
  | 0, _ => do
      let page ← heap.newPage answer
      page.carve answer s
  | left + 1, minBin =>
      let (h, popped) := heap.pop minBin
      if h ≠ 0 then popped.serve h s else search answer s left (minBin + 1)

/-- Return a block of size s or greater. -/
def alloc (answer s : Nat) : Option (Nat × Heap) := do
  assert (32 ≤ s)
  checkSize s
  let minBin := log2 s
  heap.search answer s (numBins - minBin) minBin

def alloc64 : Nat × Heap :=
  match heap.pool64.alloc 64 with
  | (slot, pool) => (slot.getD 0, { heap with pool64 := pool })

def alloc32 : Nat × Heap :=
  match heap.pool32.alloc 32 with
  | (some slot, pool) => (slot, { heap with pool32 := pool })
  | (none, pool) => { heap with pool32 := pool }.alloc64

/-- The sizes that `fc_malloc` asks the heap for. An `int` has no shift by more than 30. -/
def roundUp (s : Nat) : Option Nat :=
  let s := (s + 8) % 2 ^ 64
  let s := if s < 32 then 32 else s
  let shift := log2 (s - 1) + 1
  if 31 ≤ shift then none
  else
    let s := 2 ^ shift
    some (if s < 24 then 24 else s)

def fcMalloc (answer s : Nat) : Option (Nat × Heap) :=
  if s ≤ 64 then
    if s ≤ 32 then some heap.alloc32 else some heap.alloc64
  else do
    let rounded ← roundUp s
    let (h, served) ← heap.alloc answer rounded
    assert (served.isActive h = true)
    return (h + sizeofHeader, served)

def fcFree (f : Nat) : Option Heap :=
  match heap.pool32.free 32 f with
  | some pool => some { heap with pool32 := pool }
  | none =>
      match heap.pool64.free 64 f with
      | some pool => some { heap with pool64 := pool }
      | none => heap.free (f - sizeofHeader)

/-- The blocks from one on. -/
def walk : Nat → Nat → List Nat
  | 0, _ => []
  | steps + 1, block =>
      block :: match heap.next block with
        | none => []
        | some n => walk steps n

/-- The blocks of a page. -/
def blocks (page : Nat) : List Nat := heap.walk steps page

end Heap

end MallocSurvey.FcMalloc.FcHeap
