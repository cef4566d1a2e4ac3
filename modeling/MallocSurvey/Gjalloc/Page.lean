import Mathlib.Algebra.Ring.Nat
import Mathlib.Data.Finset.Card
import Mathlib.Data.Finset.Range
import Mathlib.Data.List.Basic
import Mathlib.Logic.Function.Basic

/-! # Pages of blocks and their free lists

Memory is a map from addresses to words, and the word at the address of a free block is its
link. A page begins with a `ba_page` of 40 bytes. A store outside of the page or of a bit
vector is a fault (`none`), and so is a list that does not end. -/

namespace MallocSurvey.Gjalloc

abbrev Words := Nat → Nat

/-- `sizeof(struct ba_page)`. -/
def baPageSize : Nat := 40

/-- `sizeof(struct ba_block_header)`. -/
def blockHeaderSize : Nat := 8

/-- The link that says that all blocks from here on are free. -/
def baOne : Nat := 1

def roundUp32 (v : Nat) : Nat :=
  let v := v ||| v >>> 1
  let v := v ||| v >>> 2
  let v := v ||| v >>> 4
  let v := v ||| v >>> 8
  let v := v ||| v >>> 16
  (v + 1) % 2 ^ 32

structure Layout where
  offset : Nat
  blockSize : Nat
  blocks : Nat
deriving DecidableEq

namespace Layout

variable (l : Layout) (p : Nat)

def blockN (n : Nat) : Nat := p + baPageSize + n * l.blockSize

def lastBlock : Nat := p + l.offset

def pageSize : Nat := l.offset + l.blockSize

def nBlock (ptr : Nat) : Nat := (ptr - (p + baPageSize)) / l.blockSize

/-- The unsigned difference is large for an address below the page. -/
def checkPtr (ptr : Nat) : Prop := p ≤ ptr ∧ ptr - p ≤ l.offset

instance (ptr : Nat) : Decidable (l.checkPtr p ptr) := inferInstanceAs (Decidable (_ ∧ _))

end Layout

/-- The flags have one bit, `BA_FLAG_SORTED`. -/
structure PageHeader where
  first : Nat
  used : Nat
  sorted : Bool
deriving DecidableEq

def storeNext (l : Layout) (p : Nat) (memory : Words) (block value : Nat) : Option Words :=
  if p + baPageSize ≤ block ∧ block + blockHeaderSize ≤ p + l.pageSize then
    some (Function.update memory block value)
  else none

def baFreePage (l : Layout) (p : Nat) (memory : Words) : Option (PageHeader × Words) := do
  let first := l.blockN p 0
  let memory ← storeNext l p memory first baOne
  return (⟨first, 0, true⟩, memory)

/-- A block goes in front of the free list. -/
def baUnshift (h : PageHeader) (memory : Words) (block : Nat) : PageHeader × Words :=
  (⟨block, h.used - 1, h.sorted && !(h.first ≠ 0 && block > h.first)⟩,
    Function.update memory block h.first)

/-- The first free block is taken. -/
def baShift (l : Layout) (p : Nat) (h : PageHeader) (memory : Words) :
    Option (Nat × PageHeader × Words) :=
  if memory h.first = baOne then do
    let first := h.first + l.blockSize
    let memory ← storeNext l p memory first (if first = l.lastBlock p then 0 else 1)
    return (h.first, ⟨first, h.used + 1, true⟩, memory)
  else some (h.first, ⟨memory h.first, h.used + 1, h.sorted⟩, memory)

/-! ## Sorting -/

/-- The bytes of a bit vector, in words of `bvLength` bits. -/
def bvByteLength (bvLength length : Nat) : Nat :=
  let bytes := length / 8 + (if length % 8 ≠ 0 then 1 else 0)
  if bytes % bvLength ≠ 0 then bytes + (bvLength - bytes % bvLength) else bytes

def bvSet (bytes : Nat) (v : Nat → Bool) (n : Nat) : Option (Nat → Bool) :=
  if n < 8 * bytes then some (Function.update v n true) else none

/-- The first loop of `ba_sort_list`: the positions of the free blocks up to a tag, and the
length of the bit vector that is left. -/
def markBlocks (bytes : Nat) (l : Layout) (p : Nat) (memory : Words) :
    Nat → Nat → Nat → (Nat → Bool) → Option (Nat × (Nat → Bool))
  | 0, _, _, _ => none
  | fuel + 1, b, length, v =>
      if b = 0 then some (length, v)
      else do
        let n := l.nBlock p b
        let v ← bvSet bytes v n
        if memory b = baOne then return (n + 1, v)
        else markBlocks bytes l p memory fuel (memory b) length v

/-- The second loop: the last position from `i` downwards that is zero or has no bit. -/
def stripBits (v : Nat → Bool) : Nat → Nat
  | 0 => 0
  | i + 1 => if v (i + 1) then stripBits v i else i + 1

/-- What `bv_ctz` finds one after another. -/
def setBits (v : Nat → Bool) (length : Nat) : List Nat := (List.range length).filter v

/-- A variable that holds a pointer, which is the head or the link of a block. -/
def storeAt (head : Nat) (memory : Words) (t : Option Nat) (value : Nat) : Nat × Words :=
  match t with
  | none => (value, memory)
  | some block => (head, Function.update memory block value)

/-- The third loop: the blocks are linked one after another. -/
def rechain (l : Layout) (p : Nat) :
    Nat → Words → Option Nat → List Nat → Nat × Words × Option Nat
  | head, memory, t, [] => (head, memory, t)
  | head, memory, t, i :: rest =>
      let block := l.blockN p i
      let (head, memory) := storeAt head memory t block
      rechain l p head memory (some block) rest

def baSortList (bvLength : Nat) (l : Layout) (p : Nat) (b : Nat) (memory : Words) :
    Option (Nat × Words) := do
  let (length, v) ← markBlocks (bvByteLength bvLength l.blocks) l p memory (l.blocks + 2) b
    l.blocks fun _ => false
  let length := if length ≠ 0 then stripBits v (length - 1) + 1 else length
  let (head, memory, t) := rechain l p b memory none (setBits v length)
  if length < l.blocks then
    let last := l.blockN p length
    let (head, memory) := storeAt head memory t last
    let memory ← storeNext l p memory last baOne
    return (head, memory)
  else return storeAt head memory t 0

def baSort (bvLength : Nat) (l : Layout) (p : Nat) (h : PageHeader) (memory : Words) :
    Option (PageHeader × Words) :=
  if h.sorted then some (h, memory)
  else do
    let (first, memory) ← baSortList bvLength l p h.first memory
    return (⟨first, h.used, true⟩, memory)

/-! ## Chunks -/

/-- The loop of `BA_WALK_CHUNKS`, as the list of the chunks from `start` to `stop`. -/
def walkFrom (l : Layout) (p : Nat) (memory : Words) :
    Nat → Nat → Nat → Option (List (Nat × Nat))
  | 0, _, _ => none
  | fuel + 1, start, stop =>
      let chunk := if start < stop then [(start, stop)] else []
      if ¬ l.checkPtr p stop then some chunk
      else
        let b := memory stop
        if b = baOne then some chunk
        else
          let next := if b = 0 then l.lastBlock p + l.blockSize else b
          (walkFrom l p memory fuel (stop + l.blockSize) next).map (chunk ++ ·)

/-- The chunks of a page whose list has been sorted. -/
def walkChunks (l : Layout) (p first : Nat) (memory : Words) : Option (List (Nat × Nat)) :=
  walkFrom l p memory (l.blocks + 2) (l.blockN p 0)
    (if first = 0 then l.lastBlock p + l.blockSize else first)

/-! ## Growing -/

/-- What `realloc` leaves of a page of some size that it has moved. -/
def movePage (memory : Words) (p n size : Nat) : Words := fun place =>
  if n ≤ place ∧ place < n + size then memory (p + (place - n)) else memory place

/-- The pointers of the free list are relocated up to the last link, which is returned with
the place that holds it. -/
def relocateList (p n : Nat) :
    Nat → Nat → Words → Option Nat → Option (Nat × Words × Option Nat × Nat)
  | 0, _, _, _ => none
  | fuel + 1, head, memory, t =>
      let value := match t with
        | none => head
        | some block => memory block
      if value > baOne then
        let block := value + n - p
        let (head, memory) := storeAt head memory t block
        relocateList p n fuel head memory (some block)
      else some (head, memory, t, value)

/-- The same loop without relocation. -/
def lastLink (memory : Words) : Nat → Nat → Option Nat → Option (Option Nat × Nat)
  | 0, _, _ => none
  | fuel + 1, head, t =>
      let value := match t with
        | none => head
        | some block => memory block
      if value > baOne then lastLink memory fuel head (some value) else some (t, value)

/-- A list without tag is continued by the first new block. -/
def appendNew (ol l : Layout) (n head : Nat) (memory : Words) (t : Option Nat) (value : Nat) :
    Option (Nat × Words) :=
  if value = 0 then do
    let block := n + ol.pageSize
    let (head, memory) := storeAt head memory t block
    let memory ← storeNext l n memory block baOne
    return (head, memory)
  else some (head, memory)

/-- `ba_grow_page` for a page that `realloc` puts at `n`, with the chunks that are reported. -/
def baGrowPage (bvLength : Nat) (p n : Nat) (h : PageHeader) (memory : Words) (ol l : Layout) :
    Option (PageHeader × Words × List (Nat × Nat)) :=
  if p = 0 then do
    let (h, memory) ← baFreePage l n memory
    return (h, memory, [])
  else if n ≠ p then do
    let memory := movePage memory p n ol.pageSize
    let (head, memory, t, value) ← relocateList p n (ol.blocks + 1) h.first memory none
    let (head, memory) ← appendNew ol l n head memory t value
    let (h, memory) ← baSort bvLength ol n ⟨head, h.used, h.sorted⟩ memory
    let chunks ← walkChunks ol n h.first memory
    return (h, memory, chunks)
  else do
    let (t, value) ← lastLink memory (ol.blocks + 1) h.first none
    let (head, memory) ← appendNew ol l n h.first memory t value
    return (⟨head, h.used, h.sorted⟩, memory, [])

end MallocSurvey.Gjalloc

/-! # The free list of a page

A chain is followed from its first pointer. The last link is null, or a tag that makes all the
blocks from there on free. -/

namespace MallocSurvey.Gjalloc

/-- What `ba_init_layout` makes of a number of blocks, unless it overflows. -/
structure Layout.Valid (l : Layout) : Prop where
  offset : l.offset = baPageSize + (l.blocks - 1) * l.blockSize
  blocks : 1 ≤ l.blocks
  blockSize : blockHeaderSize ≤ l.blockSize

variable {l ol : Layout} {p n first stop : Nat} {memory other : Words} {indices : List Nat}
  {tagged : Bool}

namespace Layout

theorem Valid.blockSize_pos (valid : l.Valid) : 0 < l.blockSize :=
  Nat.lt_of_lt_of_le (by decide) valid.blockSize

theorem blockN_lt {i j : Nat} (below : i < j) :
    l.blockN p i + l.blockSize ≤ l.blockN p j := by
  have product := Nat.mul_le_mul_right l.blockSize (Nat.succ_le_of_lt below)
  rw [Nat.succ_mul] at product
  unfold blockN
  omega

theorem blockN_lt_iff (valid : l.Valid) {i j : Nat} :
    l.blockN p i < l.blockN p j ↔ i < j := by
  have positive := valid.blockSize_pos
  constructor
  · intro below
    by_contra notBelow
    rcases Nat.lt_or_eq_of_le (Nat.le_of_not_lt notBelow) with above | same
    · have order := @blockN_lt l p j i above
      omega
    · rw [same] at below
      exact Nat.lt_irrefl _ below
  · intro below
    have order := @blockN_lt l p i j below
    omega

theorem blockN_inj (valid : l.Valid) {i j : Nat} : l.blockN p i = l.blockN p j ↔ i = j := by
  constructor
  · intro same
    have left := @blockN_lt_iff l p valid i j
    have right := @blockN_lt_iff l p valid j i
    omega
  · exact fun same => same ▸ rfl

theorem blockN_ge (l : Layout) (p i : Nat) : p + baPageSize ≤ l.blockN p i :=
  Nat.le_add_right _ _

theorem one_lt_blockN (l : Layout) (p i : Nat) : baOne < l.blockN p i := by
  have above := blockN_ge l p i
  unfold baPageSize at above
  unfold baOne
  omega

theorem blockN_next (l : Layout) (p i : Nat) : l.blockN p i + l.blockSize = l.blockN p (i + 1) := by
  unfold blockN
  rw [Nat.succ_mul, Nat.add_assoc]

theorem nBlock_blockN (valid : l.Valid) (i : Nat) : l.nBlock p (l.blockN p i) = i := by
  unfold nBlock blockN
  rw [Nat.add_sub_cancel_left, Nat.mul_div_cancel _ valid.blockSize_pos]

theorem pageEnd (valid : l.Valid) : p + l.pageSize = l.blockN p l.blocks := by
  have blocks := valid.blocks
  have isSucc : l.blocks = l.blocks - 1 + 1 := by omega
  unfold pageSize blockN
  rw [valid.offset]
  conv_rhs => rw [isSucc, Nat.succ_mul]
  omega

theorem lastBlock_eq (valid : l.Valid) : l.lastBlock p = l.blockN p (l.blocks - 1) := by
  unfold lastBlock blockN
  rw [valid.offset, Nat.add_assoc]

theorem lastBlock_end (valid : l.Valid) : l.lastBlock p + l.blockSize = l.blockN p l.blocks := by
  rw [← pageEnd valid]
  unfold lastBlock pageSize
  rw [Nat.add_assoc]

theorem checkPtr_blockN (valid : l.Valid) (i : Nat) :
    l.checkPtr p (l.blockN p i) ↔ i < l.blocks := by
  have blocks := valid.blocks
  have isLast := @lastBlock_eq l p valid
  have order := @blockN_lt_iff l p valid (l.blocks - 1) i
  have above := blockN_ge l p i
  unfold lastBlock at isLast
  unfold checkPtr
  omega

/-- Blocks of a page lie within it. -/
theorem blockN_inside (valid : l.Valid) {i : Nat} (inRange : i < l.blocks) :
    p + baPageSize ≤ l.blockN p i ∧ l.blockN p i + blockHeaderSize ≤ p + l.pageSize := by
  have order := @blockN_lt l p i l.blocks inRange
  have header := valid.blockSize
  rw [pageEnd valid]
  exact ⟨blockN_ge l p i, by omega⟩

/-- The cells of a block are not the first cell of another one. -/
theorem cell_ne {i j cell : Nat} (different : i ≠ j) (inside : cell < l.blockSize) :
    l.blockN p i + cell ≠ l.blockN p j := by
  rcases Nat.lt_or_gt_of_ne different with below | above
  · have order := @blockN_lt l p i j below
    omega
  · have order := @blockN_lt l p j i above
    omega

end Layout

/-! ## Chains -/

/-- The links from a pointer pass some blocks and end with `stop`. -/
def Chain (l : Layout) (p : Nat) (memory : Words) (stop : Nat) : Nat → List Nat → Prop
  | first, [] => first = stop
  | first, i :: rest => first = l.blockN p i ∧ Chain l p memory stop (memory first) rest

namespace Chain

theorem congr (chain : Chain l p memory stop first indices)
    (same : ∀ i ∈ indices, other (l.blockN p i) = memory (l.blockN p i)) :
    Chain l p other stop first indices := by
  induction indices generalizing first with
  | nil => exact chain
  | cons i rest induction =>
      obtain ⟨isFirst, restChain⟩ := chain
      subst isFirst
      refine ⟨rfl, ?_⟩
      rw [same i List.mem_cons_self]
      exact induction restChain fun j member => same j (List.mem_cons_of_mem _ member)

/-- The chain from a pointer is determined up to its end. -/
theorem unique {others : List Nat} {otherStop : Nat} (valid : l.Valid)
    (left : Chain l p memory stop first indices) (right : Chain l p memory otherStop first others)
    (ends : stop ≤ baOne) (otherEnds : otherStop ≤ baOne) :
    indices = others ∧ stop = otherStop := by
  induction indices generalizing first others with
  | nil =>
      cases others with
      | nil => exact ⟨rfl, left.symm.trans right⟩
      | cons j rest =>
          have above := Layout.one_lt_blockN l p j
          rw [← right.1, show first = stop from left] at above
          omega
  | cons i rest induction =>
      cases others with
      | nil =>
          have above := Layout.one_lt_blockN l p i
          rw [← left.1, show first = otherStop from right] at above
          omega
      | cons j others =>
          have sameIndex := (Layout.blockN_inj valid).mp (left.1.symm.trans right.1)
          obtain ⟨sameRest, sameStop⟩ := induction left.2 right.2
          exact ⟨by rw [sameIndex, sameRest], sameStop⟩

theorem snoc {i : Nat} (chain : Chain l p memory (l.blockN p i) first indices) :
    Chain l p memory (memory (l.blockN p i)) first (indices ++ [i]) := by
  induction indices generalizing first with
  | nil =>
      have isStop : first = l.blockN p i := chain
      exact ⟨isStop, congrArg memory isStop⟩
  | cons j rest induction => exact ⟨chain.1, induction chain.2⟩

theorem of_snoc {i : Nat} (chain : Chain l p memory stop first (indices ++ [i])) :
    Chain l p memory (l.blockN p i) first indices ∧ memory (l.blockN p i) = stop := by
  induction indices generalizing first with
  | nil =>
      obtain ⟨isFirst, isStop⟩ := chain
      exact ⟨isFirst, isFirst ▸ isStop⟩
  | cons j rest induction =>
      obtain ⟨restChain, isStop⟩ := induction chain.2
      exact ⟨⟨chain.1, restChain⟩, isStop⟩

/-- The chain goes on with the link of any of its blocks. -/
theorem after {front : List Nat} {i : Nat} {rest : List Nat}
    (chain : Chain l p memory stop first (front ++ i :: rest)) :
    Chain l p memory stop (memory (l.blockN p i)) rest := by
  induction front generalizing first with
  | nil =>
      obtain ⟨isFirst, restChain⟩ := chain
      exact isFirst ▸ restChain
  | cons j front induction => exact induction chain.2

/-- The first pointer ends the chain or is its first block. -/
theorem first_cases (chain : Chain l p memory stop first indices) :
    indices = [] ∧ first = stop ∨ ∃ i rest, indices = i :: rest ∧ first = l.blockN p i := by
  cases indices with
  | nil => exact .inl ⟨rfl, chain⟩
  | cons i rest => exact .inr ⟨i, rest, rfl, chain.1⟩

/-- The links before a block are blocks. -/
theorem link_gt (chain : Chain l p memory stop first indices) (above : baOne < stop) :
    baOne < first ∧ ∀ i ∈ indices, baOne < memory (l.blockN p i) := by
  induction indices generalizing first with
  | nil =>
      have isStop : first = stop := chain
      exact ⟨isStop ▸ above, fun i member => by cases member⟩
  | cons j rest induction =>
      obtain ⟨isFirst, restChain⟩ := chain
      obtain ⟨next, others⟩ := induction restChain
      rw [isFirst] at next
      refine ⟨isFirst ▸ Layout.one_lt_blockN l p j, fun i member => ?_⟩
      rcases List.mem_cons.mp member with isHead | isRest
      · exact isHead ▸ next
      · exact others i isRest

/-- A tag ends its chain. -/
theorem of_tag (chain : Chain l p memory stop first indices) (isTag : first = baOne) :
    indices = [] ∧ stop = baOne := by
  rcases chain.first_cases with ⟨isEmpty, isStop⟩ | ⟨i, rest, _, isBlock⟩
  · exact ⟨isEmpty, isStop.symm.trans isTag⟩
  · have above := Layout.one_lt_blockN l p i
    omega

end Chain

/-! ## Free blocks -/

/-- The link that ends a list. -/
def endOf (tagged : Bool) : Nat := if tagged then baOne else 0

theorem endOf_le (tagged : Bool) : endOf tagged ≤ baOne := by
  cases tagged with
  | false => exact Nat.zero_le _
  | true => exact Nat.le_refl _

theorem endOf_inj {left right : Bool} (same : endOf left = endOf right) : left = right := by
  cases left with
  | false => cases right with
    | false => rfl
    | true => cases same
  | true => cases right with
    | false => cases same
    | true => rfl

/-- The free blocks of a list: its members and, if it is tagged, all after the last one. -/
def freeSet (blocks : Nat) (indices : List Nat) (tagged : Bool) : Finset Nat :=
  (Finset.range blocks).filter fun i =>
    i ∈ indices ∨ tagged ∧ indices.getLast?.any fun last => last ≤ i

/-- A list of blocks of the page, of which a tagged one is the last. -/
structure FreeList (l : Layout) (p : Nat) (memory : Words) (first : Nat) (indices : List Nat)
    (tagged : Bool) : Prop where
  chain : Chain l p memory (endOf tagged) first indices
  bound : ∀ i ∈ indices, i < l.blocks
  nodup : indices.Nodup
  tag : tagged → ∃ front last, indices = front ++ [last] ∧ ∀ i ∈ front, i < last

theorem mem_freeSet {blocks i : Nat} : i ∈ freeSet blocks indices tagged ↔
    i < blocks ∧ (i ∈ indices ∨ tagged ∧ ∃ last, indices.getLast? = some last ∧ last ≤ i) := by
  unfold freeSet
  simp [Option.any_eq_true]

theorem mem_freeSet_snoc {blocks i last : Nat} {front : List Nat}
    (bound : ∀ j ∈ front ++ [last], j < blocks) :
    i ∈ freeSet blocks (front ++ [last]) true ↔ i ∈ front ∨ last ≤ i ∧ i < blocks := by
  rw [mem_freeSet, List.getLast?_concat, List.mem_append, List.mem_singleton]
  constructor
  · rintro ⟨inRange, (isFront | isLast) | ⟨_, other, isLast, above⟩⟩
    · exact .inl isFront
    · exact .inr ⟨isLast ▸ Nat.le_refl _, inRange⟩
    · cases isLast
      exact .inr ⟨above, inRange⟩
  · rintro (isFront | ⟨above, inRange⟩)
    · exact ⟨bound i (List.mem_append_left _ isFront), .inl (.inl isFront)⟩
    · exact ⟨inRange, .inr ⟨rfl, last, rfl, above⟩⟩

theorem mem_freeSet_untagged {blocks i : Nat} (bound : ∀ j ∈ indices, j < blocks) :
    i ∈ freeSet blocks indices false ↔ i ∈ indices := by
  rw [mem_freeSet]
  constructor
  · rintro ⟨_, member | ⟨impossible, _⟩⟩
    · exact member
    · cases impossible
  · exact fun member => ⟨bound i member, .inl member⟩

theorem FreeList.mem_free (list : FreeList l p memory first indices tagged) {i : Nat}
    (member : i ∈ indices) : i ∈ freeSet l.blocks indices tagged :=
  mem_freeSet.mpr ⟨list.bound i member, .inl member⟩

theorem FreeList.unique {others : List Nat} {otherTagged : Bool} (valid : l.Valid)
    (left : FreeList l p memory first indices tagged)
    (right : FreeList l p memory first others otherTagged) :
    indices = others ∧ tagged = otherTagged := by
  obtain ⟨same, sameEnd⟩ := left.chain.unique valid right.chain (endOf_le _) (endOf_le _)
  exact ⟨same, endOf_inj sameEnd⟩

/-- A header describes a page: which blocks are free, and how many are not. -/
structure Describes (l : Layout) (p : Nat) (memory : Words) (h : PageHeader)
    (free : Finset Nat) : Prop where
  list : ∃ indices tagged, FreeList l p memory h.first indices tagged ∧
    freeSet l.blocks indices tagged = free ∧ (h.sorted → indices.Pairwise (· < ·))
  used : h.used = l.blocks - free.card

end MallocSurvey.Gjalloc
