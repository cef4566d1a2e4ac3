import MallocSurvey.Library.Tiling
import MallocSurvey.Library.Transition
import Mathlib.Data.Option.Basic
import Mathlib.Logic.Function.Basic

/-! # `fc_malloc/malloc3.cpp`

The headers of one page, and what the threads and the garbage collector do with its blocks.
Pointers are addresses. An assertion that fails has no result. -/

namespace MallocSurvey.FcMalloc.Malloc3

open Library

/-- `PAGE_SIZE` -/
def pageSizeMax : Nat := 4 * 1024 * 1024

/-- `sizeof(block_header)` -/
def sizeofHeader : Nat := 8

/-- The state of a block that can be merged. -/
def idle : Int := 1

structure BlockHeader where
  /-- size of previous header. -/
  prevSize : Int
  /-- offset to next, negative indicates tail; it has 24 bits -/
  size : Int
  flags : Int

/-- The block is serving as a linked-list node. -/
structure QueueState where
  next : Option Nat
  prev : Option Nat

/-- A page and the headers that lie in it. Behind every other address there is whatever the
memory holds. -/
structure Page where
  limit : Nat
  header : Nat → BlockHeader
  /-- the payload of a block, as a node -/
  node : Nat → QueueState

def assert (condition : Prop) [Decidable condition] : Option Unit :=
  if condition then some () else none

/-- What a field of 24 bits keeps of a number. -/
def field24 (value : Int) : Int := value.bmod (2 ^ 24)

namespace Page

variable (page : Page)

def setHeader (block : Nat) (header : BlockHeader) : Page :=
  { page with header := Function.update page.header block header }

def setNode (block : Nat) (node : QueueState) : Page :=
  { page with node := Function.update page.node block node }

/-- `size()` -/
def size (block : Nat) : Nat := (page.header block).size.natAbs

def next (block : Nat) : Option Nat :=
  if 0 < (page.header block).size then
    some (block + sizeofHeader + (page.header block).size.toNat)
  else none

def prev (block : Nat) : Option Nat :=
  if (page.header block).prevSize ≤ 0 then none
  else some (block - (page.header block).prevSize.toNat - sizeofHeader)

/-- A page has no more blocks than that. -/
def steps : Nat := pageSizeMax / sizeofHeader

/-- `calc_forward_extent` -/
def calcForwardExtent : Nat → Nat → Option Nat
  | 0, _ => none
  | steps + 1, block =>
      match page.next block with
      | none => some (page.size block + sizeofHeader)
      | some n => do
          let rest ← calcForwardExtent steps n
          return page.size block + sizeofHeader + rest

def head : Nat → Nat → Option Nat
  | 0, _ => none
  | steps + 1, block =>
      match page.prev block with
      | none => some block
      | some pre => head steps pre

/-- `page_size` -/
def pageSize (block : Nat) : Option Nat := do
  let h ← page.head steps block
  page.calcForwardExtent steps h

/-- `assert( PAGE_SIZE == block->page_size() )` -/
def assertPage (block : Nat) : Option Unit :=
  assert (page.pageSize block = some pageSizeMax)

/-- `if( block ) assert( PAGE_SIZE == block->page_size() )` -/
def assertPageOf : Option Nat → Option Unit
  | none => some ()
  | some block => page.assertPage block

def setFlags (block : Nat) (flags : Int) : Page :=
  page.setHeader block { page.header block with flags := flags }

/-- The headers after `split_after` has made a block at `n`, whose flags are not written. -/
def cut (block s : Nat) : Page :=
  let n := block + sizeofHeader + s
  let nSize : Int := (page.size block : Int) - s - sizeofHeader
  let made := page.setHeader n
    { page.header n with
      prevSize := s
      size := field24 (if (page.header block).size < 0 then -nSize else nSize) }
  made.setHeader block { page.header block with size := field24 s }

/-- `split_after`; the pointer is null when there is no point in splitting. -/
def splitAfter (block s : Nat) : Option (Option Nat × Page) := do
  assert (32 ≤ s)
  page.assertPage block
  if (page.size block : Int) - 8 - 32 < s then return (none, page)
  else
    let n := block + sizeofHeader + s
    let after := page.cut block s
    assert (s ≤ after.size block)
    after.assertPage n
    after.assertPage block
    return (some n, after)

/-- `if( block ) block->as_queue_node().prev = value` -/
def setPrevOf (value : Option Nat) : Option Nat → Page
  | none => page
  | some block => page.setNode block { page.node block with prev := value }

/-- `if( block ) block->as_queue_node().next = value` -/
def setNextOf (value : Option Nat) : Option Nat → Page
  | none => page
  | some block => page.setNode block { page.node block with next := value }

/-- The node of `nxt` is taken out of the list that it is in. -/
def unlink (nxt : Nat) : Page :=
  let qs := page.node nxt
  (page.setPrevOf qs.prev qs.next).setNextOf qs.next qs.prev

/-- The headers after the block has taken the memory of `nxt`. -/
def merged (block nxt : Nat) : Page :=
  let grown := field24 ((page.header block).size + page.size nxt + 8)
  let size := if (page.header nxt).size < 0 then field24 (-grown) else grown
  let whole := page.setHeader block { page.header block with size := size }
  match whole.next block with
  | none => whole
  | some after =>
      whole.setHeader after { whole.header after with prevSize := whole.size block }

/-- `merge_next`, which returns its block -/
def mergeNext (block : Nat) : Option Page := do
  page.assertPage block
  assert ((page.header block).flags = idle)
  match page.next block with
  | none => return page
  | some nxt =>
      page.assertPage nxt
      if (page.header nxt).flags ≠ idle then return page
      else
        let after := (page.unlink nxt).merged block nxt
        after.assertPage block
        after.assertPageOf (after.next block)
        after.assertPageOf (after.prev block)
        return after

/-- `merge_prev`; the pointer is the head of the new block. -/
def mergePrev (block : Nat) : Option (Nat × Page) := do
  let marked := page.setFlags block idle
  match marked.prev block with
  | none => return (block, marked)
  | some p =>
      if (marked.header p).flags ≠ idle then return (block, marked)
      else
        let after ← marked.mergeNext p
        return (p, after)

/-- The blocks from one on. -/
def walk : Nat → Nat → List Nat
  | 0, _ => []
  | steps + 1, block =>
      block :: match page.next block with
        | none => []
        | some n => walk steps n

/-- The blocks of the page. -/
def blocks : List Nat := page.walk steps page.limit

/-- A block with its header. -/
def extent (block : Nat) : Extent := ⟨block, sizeofHeader + page.size block⟩

end Page

/-- `allocate_block_page`: the page has one block, the tail. -/
structure Started (page : Page) : Prop where
  limit_pos : 0 < page.limit
  prevSize_eq : (page.header page.limit).prevSize = 0
  size_eq : (page.header page.limit).size = -(pageSizeMax - 8)

inductive Event where
  | splitAfter (block s : Nat)
  | mergeNext (block : Nat)
  | mergePrev (block : Nat)
  /-- `set_state` -/
  | setState (block : Nat) (flags : Int)
  /-- The bins and the threads keep their lists in the payloads. -/
  | setNode (block : Nat) (node : QueueState)
  /-- The application writes where no header is. -/
  | write (address : Nat) (left : BlockHeader)

def step (page : Page) : Event → Option Page
  | .splitAfter block s => (page.splitAfter block s).map Prod.snd
  | .mergeNext block => page.mergeNext block
  | .mergePrev block => (page.mergePrev block).map Prod.snd
  | .setState block flags => some (page.setFlags block flags)
  | .setNode block node => some (page.setNode block node)
  | .write address left => some (page.setHeader address left)

/-- The operations are called on blocks of the page. -/
def Enabled (page : Page) : Event → Prop
  | .splitAfter block _ | .mergeNext block | .mergePrev block | .setState block _
  | .setNode block _ => block ∈ page.blocks
  | .write address _ => address ∉ page.blocks

instance (page : Page) : (event : Event) → Decidable (Enabled page event)
  | .splitAfter block _ | .mergeNext block | .mergePrev block | .setState block _
  | .setNode block _ => inferInstanceAs (Decidable (block ∈ page.blocks))
  | .write address _ => inferInstanceAs (Decidable (address ∉ page.blocks))

def machine : Machine Page Event where
  Init := Started
  Enabled := Enabled
  step := step

instance (page : Page) (event : Event) : Decidable (machine.Enabled page event) :=
  inferInstanceAs (Decidable (Enabled page event))

end MallocSurvey.FcMalloc.Malloc3

/-! # The physical chain of a page -/

namespace MallocSurvey.FcMalloc.Malloc3

open Library

variable {page page' : Page} {block start before size : Nat} {isLast : Bool}
  {sizes first second : List Nat}

/-- What the header of a block says. -/
structure Told (page : Page) (block before size : Nat) (isLast : Bool) : Prop where
  size_pos : 0 < size
  prevSize_eq : (page.header block).prevSize = before
  size_eq : (page.header block).size = if isLast then -(size : Int) else size

namespace Told

theorem size_of (told : Told page block before size isLast) : page.size block = size := by
  unfold Page.size
  rw [told.size_eq]
  cases isLast <;> simp

theorem next_of_last (told : Told page block before size true) : page.next block = none := by
  unfold Page.next
  rw [told.size_eq]
  exact if_neg (by simp)

theorem next_of_inner (told : Told page block before size false) :
    page.next block = some (block + (sizeofHeader + size)) := by
  have positive := told.size_pos
  unfold Page.next
  rw [told.size_eq]
  simp only [Bool.false_eq_true, if_false, Int.toNat_natCast]
  rw [if_pos (by omega), Nat.add_assoc]

theorem prev_of_first (told : Told page block 0 size isLast) : page.prev block = none := by
  unfold Page.prev
  rw [told.prevSize_eq]
  exact if_pos (Int.le_refl 0)

theorem prev_of_pos (told : Told page block before size isLast) (positive : 0 < before) :
    page.prev block = some (block - before - sizeofHeader) := by
  unfold Page.prev
  rw [told.prevSize_eq, if_neg (by omega), Int.toNat_natCast]

theorem of_sizes (told : Told page block before size isLast)
    (samePrev : (page'.header block).prevSize = (page.header block).prevSize)
    (sameSize : (page'.header block).size = (page.header block).size) :
    Told page' block before size isLast :=
  ⟨told.size_pos, samePrev.trans told.prevSize_eq, sameSize.trans told.size_eq⟩

theorem of_header (told : Told page block before size isLast)
    (same : page'.header block = page.header block) : Told page' block before size isLast :=
  told.of_sizes (congrArg _ same) (congrArg _ same)

theorem extent_eq (told : Told page block before size isLast) :
    page.extent block = ⟨block, sizeofHeader + size⟩ := by
  unfold Page.extent
  rw [told.size_of]

end Told

theorem field24_of_lt {value : Int} (low : -(2 ^ 23) ≤ value) (high : value < 2 ^ 23) :
    field24 value = value :=
  Int.bmod_eq_of_le_mul_two (by omega) (by omega)

/-- The headers of the page are those of a row of blocks. -/
structure Laid (page : Page) (sizes : List Nat) : Prop where
  nonempty : sizes ≠ []
  row : Row sizeofHeader (Told page) true page.limit 0 sizes
  span_eq : span sizeofHeader sizes = pageSizeMax

/-! ## The walks along a page -/

theorem calcForwardExtent_of_row (row : Row sizeofHeader (Told page) true start before sizes)
    (nonempty : sizes ≠ []) {steps : Nat} (enough : sizes.length ≤ steps) :
    page.calcForwardExtent steps start = some (span sizeofHeader sizes) := by
  induction sizes generalizing start before steps with
  | nil => exact absurd rfl nonempty
  | cons size sizes induction =>
      obtain ⟨told, rest⟩ := row
      cases steps with
      | zero => cases enough
      | succ steps =>
          cases sizes with
          | nil =>
              simp only [Page.calcForwardExtent, told.next_of_last, told.size_of, span_cons,
                span_nil, Nat.add_zero, Nat.add_comm sizeofHeader]
          | cons other sizes =>
              have onward := induction rest (List.cons_ne_nil _ _) (Nat.le_of_succ_le_succ enough)
              simp only [Page.calcForwardExtent, told.next_of_inner, onward, told.size_of,
                Option.bind_eq_bind, Option.bind_some, Option.pure_def]
              rw [span_cons size, Nat.add_comm size]

theorem walk_of_row (row : Row sizeofHeader (Told page) true start before sizes)
    (nonempty : sizes ≠ []) {steps : Nat} (enough : sizes.length ≤ steps) :
    page.walk steps start = starts sizeofHeader start sizes := by
  induction sizes generalizing start before steps with
  | nil => exact absurd rfl nonempty
  | cons size sizes induction =>
      obtain ⟨told, rest⟩ := row
      cases steps with
      | zero => cases enough
      | succ steps =>
          cases sizes with
          | nil => simp only [Page.walk, told.next_of_last, starts]
          | cons other sizes =>
              have onward := induction rest (List.cons_ne_nil _ _) (Nat.le_of_succ_le_succ enough)
              simp only [Page.walk, told.next_of_inner, onward]
              rfl

/-- The block after a row that is not closed finds the first one. -/
theorem head_of_row (row : Row sizeofHeader (Told page) false start 0 first)
    (told : Told page (start + span sizeofHeader first) (first.getLastD 0) size isLast)
    {steps : Nat} (enough : first.length < steps) :
    page.head steps (start + span sizeofHeader first) = some start := by
  induction first using List.reverseRecOn generalizing size isLast steps with
  | nil =>
      have isFirst : page.prev start = none := told.prev_of_first
      cases steps with
      | zero => cases enough
      | succ steps => simp only [Page.head, span_nil, Nat.add_zero, isFirst]
  | append_singleton first last induction =>
      obtain ⟨front, lastTold, _⟩ := Row.at_iff.mp row
      rw [List.getLastD_concat] at told
      have back : start + span sizeofHeader (first ++ [last]) - last - sizeofHeader =
          start + span sizeofHeader first := by
        rw [span_append, span_cons, span_nil]
        omega
      cases steps with
      | zero => cases enough
      | succ steps =>
          rw [List.length_append] at enough
          simp only [Page.head, told.prev_of_pos lastTold.size_pos, back]
          exact induction front lastTold (Nat.lt_of_succ_lt_succ enough)

namespace Laid

theorem length_le (laid : Laid page sizes) : sizes.length ≤ Page.steps := by
  have bound : sizeofHeader * sizes.length ≤ span sizeofHeader sizes := length_le_span sizes
  rw [laid.span_eq] at bound
  simp only [sizeofHeader, pageSizeMax, Page.steps] at *
  omega

theorem blocks_eq (laid : Laid page sizes) :
    page.blocks = starts sizeofHeader page.limit sizes :=
  walk_of_row laid.row laid.nonempty laid.length_le

/-- A block and what comes before and after it. -/
theorem at_block (laid : Laid page sizes) (member : block ∈ page.blocks) :
    ∃ first size second, sizes = first ++ size :: second ∧
      block = page.limit + span sizeofHeader first ∧
      Row sizeofHeader (Told page) false page.limit 0 first ∧
      Told page block (first.getLastD 0) size second.isEmpty ∧
      Row sizeofHeader (Told page) true (block + (sizeofHeader + size)) size second := by
  rw [laid.blocks_eq] at member
  obtain ⟨first, size, second, split, place⟩ := mem_starts.mp member
  have row := laid.row
  rw [split] at row
  obtain ⟨front, told, rest⟩ := Row.at_iff.mp row
  rw [← place] at told rest
  exact ⟨first, size, second, split, place, front, told, rest⟩

theorem mem_blocks (laid : Laid page (first ++ size :: second)) :
    page.limit + span sizeofHeader first ∈ page.blocks := by
  rw [laid.blocks_eq]
  exact mem_starts.mpr ⟨first, size, second, rfl, rfl⟩

theorem pageSize_eq (laid : Laid page sizes) (member : block ∈ page.blocks) :
    page.pageSize block = some pageSizeMax := by
  obtain ⟨first, size, second, split, place, front, told, _⟩ := laid.at_block member
  have enough := laid.length_le
  rw [split, List.length_append, List.length_cons] at enough
  have isHead : page.head Page.steps block = some page.limit := by
    rw [place] at told ⊢
    exact head_of_row front told (by omega)
  unfold Page.pageSize
  rw [isHead, Option.bind_eq_bind, Option.bind_some,
    calcForwardExtent_of_row laid.row laid.nonempty laid.length_le, laid.span_eq]

theorem assertPage_eq (laid : Laid page sizes) (member : block ∈ page.blocks) :
    page.assertPage block = some () :=
  if_pos (laid.pageSize_eq member)

/-- The assertions on the size of the page hold. -/
theorem assertPageOf_eq (laid : Laid page sizes) {pointer : Option Nat}
    (member : ∀ block, pointer = some block → block ∈ page.blocks) :
    page.assertPageOf pointer = some () := by
  cases pointer with
  | none => rfl
  | some block => exact laid.assertPage_eq (member block rfl)

theorem size_lt (laid : Laid page (first ++ size :: second)) : size < 2 ^ 22 := by
  have whole := laid.span_eq
  rw [span_append, span_cons] at whole
  simp only [sizeofHeader, pageSizeMax] at whole
  omega

/-- Only the sizes in the headers of the blocks matter. -/
theorem of_sizes (laid : Laid page sizes) (limit_eq : page'.limit = page.limit)
    (samePrev : ∀ block ∈ page.blocks,
      (page'.header block).prevSize = (page.header block).prevSize)
    (sameSize : ∀ block ∈ page.blocks, (page'.header block).size = (page.header block).size) :
    Laid page' sizes := by
  refine ⟨laid.nonempty, ?_, laid.span_eq⟩
  rw [limit_eq]
  rw [laid.blocks_eq] at samePrev sameSize
  exact laid.row.congr fun block member _ _ _ told =>
    told.of_sizes (samePrev block member) (sameSize block member)

theorem next_mem (laid : Laid page sizes) (member : block ∈ page.blocks) {n : Nat}
    (isNext : page.next block = some n) : n ∈ page.blocks := by
  obtain ⟨first, size, second, split, place, _, told, _⟩ := laid.at_block member
  cases second with
  | nil =>
      have isLast := told.next_of_last
      rw [isLast] at isNext
      cases isNext
  | cons other second =>
      rw [told.next_of_inner] at isNext
      cases isNext
      have onward : block + (sizeofHeader + size) =
          page.limit + span sizeofHeader (first ++ [size]) := by
        rw [place, span_append, span_cons, span_nil, Nat.add_zero, Nat.add_assoc]
      rw [laid.blocks_eq, onward]
      exact mem_starts.mpr ⟨first ++ [size], other, second, by simp [split], rfl⟩

end Laid

theorem laid_started (started : Started page) : Laid page [pageSizeMax - 8] := by
  refine ⟨List.cons_ne_nil _ _, ⟨⟨by decide, ?_, ?_⟩, trivial⟩, rfl⟩
  · exact started.prevSize_eq
  · exact started.size_eq.trans (by decide)

/-! ## Consistency -/

/-- The neighbours find each other, and the blocks tile the page. -/
structure Consistent (page : Page) : Prop where
  prev_next : ∀ block ∈ page.blocks,
    (page.extent block).start + (page.extent block).length ≠ page.limit + pageSizeMax →
      ∃ n ∈ page.blocks, page.next block = some n ∧ page.prev n = some block
  next_prev : ∀ block ∈ page.blocks, block ≠ page.limit →
    ∃ p ∈ page.blocks, page.prev block = some p ∧ page.next p = some block
  tiles : Extent.Tiles page.limit (page.blocks.map page.extent) (page.limit + pageSizeMax)

theorem Laid.consistent (laid : Laid page sizes) : Consistent page where
  prev_next := by
    intro block member notLast
    obtain ⟨first, size, second, split, place, front, told, rest⟩ := laid.at_block member
    cases second with
    | nil =>
        exfalso
        apply notLast
        rw [told.extent_eq, ← laid.span_eq, split, span_append, span_cons, span_nil, place,
          Nat.add_zero, Nat.add_assoc]
    | cons other second =>
        have back := rest.1.prev_of_pos told.size_pos
        have place' : block + (sizeofHeader + size) - size - sizeofHeader = block := by omega
        rw [place'] at back
        exact ⟨_, laid.next_mem member told.next_of_inner, told.next_of_inner, back⟩
  next_prev := by
    intro block member notFirst
    obtain ⟨first, size, second, split, place, front, told, rest⟩ := laid.at_block member
    rcases List.eq_nil_or_concat first with isNil | ⟨front', last, isConcat⟩
    · rw [isNil, span_nil, Nat.add_zero] at place
      exact absurd place notFirst
    · subst isConcat
      rw [List.concat_eq_append] at *
      obtain ⟨_, lastTold, _⟩ := Row.at_iff.mp front
      rw [List.getLastD_concat] at told
      have place' : block = page.limit + span sizeofHeader front' + (sizeofHeader + last) := by
        rw [place, span_append, span_cons, span_nil]
        omega
      have back := told.prev_of_pos lastTold.size_pos
      have back' : block - last - sizeofHeader = page.limit + span sizeofHeader front' := by
        omega
      rw [back'] at back
      refine ⟨_, ?_, back, place' ▸ lastTold.next_of_inner⟩
      rw [laid.blocks_eq]
      exact mem_starts.mpr ⟨front', last, size :: second, by simp [split], rfl⟩
  tiles := by
    rw [laid.blocks_eq, ← laid.span_eq]
    exact tiles_starts (fun _ _ _ _ told => told.extent_eq) laid.row

theorem Laid.prev_mem (laid : Laid page sizes) (member : block ∈ page.blocks) {p : Nat}
    (isPrev : page.prev block = some p) : p ∈ page.blocks := by
  by_cases isFirst : block = page.limit
  · have told := laid.row
    obtain ⟨size, rest, split⟩ := List.exists_cons_of_ne_nil laid.nonempty
    rw [split] at told
    rw [isFirst, told.1.prev_of_first] at isPrev
    cases isPrev
  · obtain ⟨other, otherMember, isOther, _⟩ := laid.consistent.next_prev block member isFirst
    rw [isOther] at isPrev
    cases isPrev
    exact otherMember

end MallocSurvey.FcMalloc.Malloc3
