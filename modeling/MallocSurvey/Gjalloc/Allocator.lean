import MallocSurvey.Gjalloc.HashTable
import MallocSurvey.Gjalloc.Chunks

/-! # `struct block_allocator`

Pages are linked by `next` and `prev`. The header of the page that is allocated from and the
one of the page that a block was freed to last are cached. A null pointer that is followed, a
slot that does not exist and `ba_error` are faults. -/

namespace MallocSurvey.Gjalloc

structure BlockAllocator where
  l : Layout
  magnitude : Nat
  htable : HashTable
  /-- The headers within the pages. -/
  header : Nat → PageHeader
  next : Nat → Nat
  prev : Nat → Nat
  memory : Words
  /-- `pages`: less than half full, at least half full, and empty. -/
  slots : Nat → Nat
  alloc : Nat
  h : PageHeader
  lastFree : Nat
  hf : PageHeader
  numPages : Nat
  emptyPages : Nat

/-! ## The start -/

/-- The offset of the last block is computed in 32 bits but for the header. -/
def baInitLayout (blockSize blocks : Nat) : Layout :=
  ⟨baPageSize + (blocks + 2 ^ 32 - 1) % 2 ^ 32 * blockSize % 2 ^ 32, blockSize, blocks⟩

/-- `MALLOC_OVERHEAD`. -/
def mallocOverhead : Nat := 8

def baAlignLayout (l : Layout) : Layout :=
  let pageSize := (l.offset + l.blockSize + mallocOverhead) % 2 ^ 32
  let pageSize := if pageSize &&& (pageSize - 1) ≠ 0 then roundUp32 pageSize else pageSize
  let pageSize := (pageSize + 2 ^ 32 - (mallocOverhead + baPageSize)) % 2 ^ 32
  baInitLayout l.blockSize (pageSize / l.blockSize)

/-- `ba_init`, on memory with any contents. -/
def baInit (blockSize blocks : Nat) (memory : Words) (header : Nat → PageHeader)
    (next prev : Nat → Nat) : Option BlockAllocator :=
  if blockSize = 0 then none
  else
    let blockSize := if blockSize < blockHeaderSize then blockHeaderSize else blockSize
    let blocks := if blocks = 0 then 512 else blocks
    let l := baAlignLayout (baInitLayout blockSize blocks)
    some {
      l := l
      magnitude := Nat.log2 (roundUp32 (l.pageSize % 2 ^ 32))
      htable := HashTable.empty
      header := header
      next := next
      prev := prev
      memory := memory
      slots := fun _ => 0
      alloc := 0
      h := ⟨0, 0, false⟩
      lastFree := 0
      hf := ⟨0, 0, false⟩
      numPages := 0
      emptyPages := 0 }

end MallocSurvey.Gjalloc
