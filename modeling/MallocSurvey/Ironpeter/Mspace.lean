import MallocSurvey.Library.Extents
import MallocSurvey.Library.Transition

/-! # `ironpeter/iron.cpp`

`width` is the size of a pointer. Pointers are addresses and null is 0. A failed
assertion and the use of a node that the platform does not have are `none`. -/

namespace MallocSurvey.Ironpeter

open Library

def platformSize : Nat := 65536

def granAlloc : Nat := 4

def platformBins : Nat := 32

/-! ## The size tables -/

def nextSize (curr : Nat) : Nat :=
  let ncurr := curr * 4 / 3
  let ncurr := ncurr - ncurr % granAlloc
  if ncurr = curr then ncurr + granAlloc else ncurr

/-- `sizes[i]` -/
def sizes : Nat → Nat
  | 0 => granAlloc
  | i + 1 => nextSize (sizes i)

/-- The `while` loop from `j` on; `left` elements of `sizes` are behind it. -/
def seek (needed : Nat) : Nat → Nat → Nat
  | 0, j => j
  | left + 1, j => if sizes j < needed then seek needed left (j + 1) else j

def seekFrom (needed j : Nat) : Nat := seek needed (255 - j) j

def bremap : Nat → Nat
  | 0 => seekFrom granAlloc 0
  | i + 1 => seekFrom ((i + 1) * granAlloc + granAlloc) (bremap i)

def bsizes (i : Nat) : Nat := sizes (bremap i)

/-! ## Nodes -/

structure NodeHeader where
  next : Nat
  usedObjs : Nat
  index : Nat
  firstObject : Nat
deriving DecidableEq

/-- `sizeof(node_header)` -/
def sizeofHeader (width : Nat) : Nat := 4 * width

/-- The `temp` of a node, which is its first object. -/
def firstObjectOf (width page : Nat) : Nat := page + sizeofHeader width

/-- The objects of a node. -/
def limit (width granularity : Nat) : Nat := (platformSize - sizeofHeader width) / granularity

/-- The loop of the constructor from some `i` on. -/
def linkObjects (width granularity first : Nat) : Nat → Nat → Nat → Memory → Memory
  | 0, i, _, memory => storeBytes memory (first + i * granularity) width 0
  | left + 1, i, tail, memory =>
      let memory := storeBytes memory tail width (first + (i + 1) * granularity)
      linkObjects width granularity first left (i + 1) (loadBytes memory tail width) memory

structure Mspace where
  memory : Memory
  /-- the nodes, by their pages -/
  header : Nat → Option NodeHeader
  nodes : Nat → Nat
  /-- what the platform has handed out -/
  regions : List Extent

namespace Mspace

variable (width : Nat) (space : Mspace)

def setHeader (page : Nat) (header : NodeHeader) : Mspace :=
  { space with header := Function.update space.header page (some header) }

/-- `platform_alloc`, with the answer of the system -/
def platformAlloc (count answer : Nat) : Option (Nat × Mspace) :=
  if answer % platformSize ≠ 0 then none
  else if answer = 0 then some (0, space)
  else
    some (answer, { space with
      regions := ⟨answer, platformSize * count % 256 ^ width⟩ :: space.regions })

/-- `platform_free` -/
def platformFree (data : Nat) : Option Mspace :=
  if data = 0 then some space
  else if data % platformSize ≠ 0 then none
  else if space.regions.any fun region => region.start = data then
    some { space with
      header := Function.update space.header data none
      regions := space.regions.eraseP fun region => region.start = data }
  else none

/-- `new (page) node(granularity, index)` -/
def newNode (page granularity index : Nat) : Option Mspace :=
  if page = 0 then none
  else
    let first := firstObjectOf width page
    some { space.setHeader page ⟨0, 0, index, first⟩ with
      memory := linkObjects width granularity first (limit width granularity - 1) 0 first
        space.memory }

/-- `node::alloc` -/
def nodeAlloc (page : Nat) : Option (Nat × Mspace) := do
  let header ← space.header page
  return (header.firstObject, space.setHeader page { header with
    usedObjs := header.usedObjs + 1
    firstObject := loadBytes space.memory header.firstObject width })

/-- `node::free` -/
def nodeFree (page data : Nat) : Option Mspace := do
  let header ← space.header page
  return { space.setHeader page { header with
      usedObjs := header.usedObjs - 1
      firstObject := data } with
    memory := storeBytes space.memory data width header.firstObject }

end Mspace

/-! ## `_mspace` -/

/-- The `while` loop of `clean_up` for a bin. Each turn takes a node of the platform. -/
def cleanBin (bin : Nat) : Nat → Nat → Mspace → Option Mspace
  | 0, _, _ => none
  | fuel + 1, next, space =>
      if next = 0 then some space
      else do
        let header ← space.header next
        if header.usedObjs = 0 then
          let space ← space.platformFree next
          cleanBin bin fuel header.next space
        else
          let linked := space.setHeader next { header with next := space.nodes bin }
          cleanBin bin fuel header.next
            { linked with nodes := Function.update linked.nodes bin next }

/-- The loop of `clean_up` over some bins. -/
def cleanBins : List Nat → Mspace → Option Mspace
  | [], space => some space
  | bin :: rest, space => do
      let space ← cleanBin bin (space.regions.length + 1) (space.nodes bin)
        { space with nodes := Function.update space.nodes bin 0 }
      cleanBins rest space

namespace Mspace

variable (width : Nat) (space : Mspace)

def cleanUp : Option Mspace := cleanBins (List.range platformBins) space

/-- `size_t(p) & ~65535` -/
def pageOf (p : Nat) : Nat := p / platformSize * platformSize

def free (p : Nat) : Option Mspace :=
  let dest := pageOf p
  if dest = p then space.platformFree p
  else do
    let header ← space.header dest
    let space :=
      if header.firstObject = 0 then
        let linked := space.setHeader dest { header with next := space.nodes header.index }
        { linked with nodes := Function.update linked.nodes header.index dest }
      else space
    let space ← space.nodeFree width dest p
    let header ← space.header dest
    if header.usedObjs = 0 then space.cleanUp else return space

/-- The node that `malloc` takes an object from: the first one of the bin, or a new one. -/
def fetchNode (msb mss answer : Nat) : Option (Nat × Mspace) :=
  let dest := space.nodes msb
  if dest = 0 then do
    let (page, space) ← space.platformAlloc width 1 answer
    let space ← space.newNode width page mss msb
    let header ← space.header page
    let linked := space.setHeader page { header with next := space.nodes msb }
    return (page, { linked with nodes := Function.update linked.nodes msb page })
  else some (dest, space)

/-- The rest of `malloc`. -/
def takeObject (msb dest : Nat) : Option (Nat × Mspace) := do
  let (result, space) ← space.nodeAlloc width dest
  let header ← space.header dest
  if header.firstObject = 0 then
    return (result, { space with nodes := Function.update space.nodes msb header.next })
  else return (result, space)

/-- The index of a size in the tables. -/
def tableIndex (size : Nat) : Nat := if size = 0 then 0 else (size - 1) / granAlloc

def malloc (size answer : Nat) : Option (Nat × Mspace) :=
  if platformSize / 2 < size then
    space.platformAlloc width ((size - 1) / platformSize + 1) answer
  else do
    let msb := bremap (tableIndex size)
    let (dest, space) ← space.fetchNode width msb (bsizes (tableIndex size)) answer
    space.takeObject width msb dest

/-- No memory has been asked for. -/
def initial (memory : Memory) : Mspace := ⟨memory, fun _ => none, fun _ => 0, []⟩

end Mspace

/-! ## A program that uses the space -/

/-- An object that `imalloc` returned for some size. -/
structure Object where
  pointer : Nat
  size : Nat
deriving DecidableEq

/-- The bytes of an object: those of its class, or whole pages. -/
def Object.room (object : Object) : Nat :=
  if platformSize / 2 < object.size then
    platformSize * ((object.size - 1) / platformSize + 1)
  else bsizes (Mspace.tableIndex object.size)

structure State where
  space : Mspace
  live : List Object

inductive Event
  | imalloc (size answer : Nat)
  /-- `ifree` of the `index`-th of the live objects -/
  | ifree (index : Nat)
  /-- The program writes to an object. -/
  | write (place : Nat) (value : UInt8)

/-- What the system may answer for some pages: null, or memory that is not in use at an
address it is granular for. No memory is none. -/
def Answers (width : Nat) (space : Mspace) (count answer : Nat) : Prop :=
  answer = 0 ∨ 0 < platformSize * count % 256 ^ width ∧ answer % platformSize = 0 ∧
    answer + platformSize * count % 256 ^ width ≤ 256 ^ width ∧
    ∀ region ∈ space.regions,
      Extent.Apart ⟨answer, platformSize * count % 256 ^ width⟩ region

/-- The pages that `imalloc` may ask for. -/
def pagesFor (size : Nat) : Nat :=
  if platformSize / 2 < size then (size - 1) / platformSize + 1 else 1

def Enabled (width : Nat) (state : State) : Event → Prop
  | .imalloc size answer =>
      size < 256 ^ width ∧ Answers width state.space (pagesFor size) answer
  | .ifree index => index < state.live.length
  | .write place _ =>
      ∃ object ∈ state.live, object.pointer ≤ place ∧ place < object.pointer + object.size

def step (width : Nat) (state : State) : Event → Option State
  | .imalloc size answer => do
      let (result, space) ← state.space.malloc width size answer
      if result = 0 then return { state with space := space }
      else return ⟨space, ⟨result, size⟩ :: state.live⟩
  | .ifree index => do
      let object ← state.live[index]?
      let space ← state.space.free width object.pointer
      return ⟨space, state.live.eraseIdx index⟩
  | .write place value =>
      some { state with space := { state.space with
        memory := Function.update state.space.memory place value } }

def machine (width : Nat) : Machine State Event where
  Init state := ∃ memory, state = ⟨.initial memory, []⟩
  Enabled := Enabled width
  step := step width

end MallocSurvey.Ironpeter

/-! # The size tables -/

namespace MallocSurvey.Ironpeter

theorem sizes_mod (i : Nat) : sizes i % 4 = 0 := by
  induction i with
  | zero => rfl
  | succ i induction =>
      unfold sizes nextSize granAlloc
      dsimp only
      split
      · omega
      · omega

theorem sizes_le_succ (i : Nat) : sizes i ≤ sizes (i + 1) := by
  have aligned := sizes_mod i
  change _ ≤ nextSize (sizes i)
  unfold nextSize granAlloc
  dsimp only
  split
  · omega
  · omega

theorem sizes_mono {left right : Nat} (below : left ≤ right) : sizes left ≤ sizes right :=
  monotone_nat_of_le_succ sizes_le_succ below

theorem sizes_ge (i : Nat) : 4 ≤ sizes i := sizes_mono (Nat.zero_le i)

/-- The size of the last bin. -/
theorem sizes_last : sizes 31 = 34884 := by decide +kernel

theorem seek_spec {needed : Nat} (small : needed ≤ sizes 31) {left j : Nat}
    (isLeft : j + left = 255) (inBins : j ≤ 31) :
    j ≤ seek needed left j ∧ seek needed left j ≤ 31 ∧ needed ≤ sizes (seek needed left j) := by
  induction left generalizing j with
  | zero => omega
  | succ left induction =>
      unfold seek
      split
      · next short =>
          have notLast : j ≠ 31 := by
            rintro rfl
            exact Nat.not_lt_of_le small short
          obtain ⟨above, below, enough⟩ := @induction (j + 1) (by omega) (by omega)
          exact ⟨by omega, below, enough⟩
      · next enough => exact ⟨Nat.le_refl j, inBins, Nat.le_of_not_lt enough⟩

/-- The bin of a size exists and its objects have room for the size. -/
theorem bremap_spec {i : Nat} (inTable : i < platformSize / granAlloc / 2) :
    bremap i ≤ 31 ∧ i * granAlloc + granAlloc ≤ bsizes i := by
  have last := sizes_last
  unfold platformSize granAlloc at inTable
  induction i with
  | zero =>
      obtain ⟨_, below, enough⟩ := @seek_spec granAlloc (by rw [last]; decide) 255 0 rfl (by decide)
      exact ⟨below, by rw [Nat.zero_mul, Nat.zero_add]; exact enough⟩
  | succ i induction =>
      have before := (induction (by omega)).1
      obtain ⟨_, below, enough⟩ := @seek_spec ((i + 1) * granAlloc + granAlloc)
        (by rw [last]; unfold granAlloc; omega) (255 - bremap i) (bremap i) (by omega) before
      exact ⟨below, enough⟩

theorem tableIndex_spec {size : Nat} (small : size ≤ platformSize / 2) :
    Mspace.tableIndex size < platformSize / granAlloc / 2 ∧
      size ≤ Mspace.tableIndex size * granAlloc + granAlloc := by
  unfold Mspace.tableIndex platformSize granAlloc at *
  split
  · omega
  · omega

/-- With pointers of four bytes, or for more than four bytes, a link fits in an object. -/
theorem width_le_bsizes {width size : Nat} (isWidth : width = 4 ∨ width = 8)
    (small : size ≤ platformSize / 2) (fits : width = 4 ∨ 4 < size) :
    width ≤ bsizes (Mspace.tableIndex size) := by
  obtain ⟨inTable, enough⟩ := tableIndex_spec small
  have room := (bremap_spec inTable).2
  have atLeast := sizes_ge (bremap (Mspace.tableIndex size))
  have aligned := sizes_mod (bremap (Mspace.tableIndex size))
  unfold bsizes at *
  omega

/-- Every node has an object, and its objects end within its page. -/
theorem limit_spec {width index : Nat} (isWidth : width = 4 ∨ width = 8) (inBins : index ≤ 31) :
    0 < limit width (sizes index) ∧
      sizeofHeader width + sizes index * limit width (sizes index) ≤ platformSize := by
  have below := sizes_mono inBins
  rw [sizes_last] at below
  have positive := sizes_ge index
  have fitting := Nat.mul_div_le (platformSize - sizeofHeader width) (sizes index)
  unfold limit
  constructor
  · apply Nat.div_pos
    · unfold platformSize sizeofHeader
      omega
    · omega
  · unfold platformSize sizeofHeader at *
    omega

end MallocSurvey.Ironpeter
