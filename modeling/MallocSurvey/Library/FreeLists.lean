import MallocSurvey.Library.ByteMemory
import MallocSurvey.Library.CellList

/-! # Segregated free lists in byte memory

Each bin has a stack of free blocks, and the first word of a free block points to
the next one of its bin. The blocks of all bins are kept in one list, the one freed
last in front. -/

namespace MallocSurvey.Library

structure FreeBlock (Bin : Type) where
  bin : Bin
  start : Nat
  room : Nat
deriving DecidableEq

variable {Bin : Type} [DecidableEq Bin]

/-- The blocks of a bin from its head on. -/
def startsOf (bin : Bin) (free : List (FreeBlock Bin)) : List Nat :=
  (free.filter fun block => block.bin = bin).map FreeBlock.start

/-- The block that the head of a bin points to. -/
def firstOf (bin : Bin) (free : List (FreeBlock Bin)) : Option (FreeBlock Bin) :=
  free.find? fun block => block.bin = bin

def dropFirst (bin : Bin) (free : List (FreeBlock Bin)) : List (FreeBlock Bin) :=
  free.eraseP fun block => block.bin = bin

/-- The heads and the words in memory are those of the stacks. -/
structure Chained (memory : Memory) (heads : Bin → Nat) (free : List (FreeBlock Bin)) :
    Prop where
  head : ∀ bin, heads bin = (startsOf bin free).headD 0
  linked : ∀ bin, Linked id (loadPointer memory) (startsOf bin free)

theorem startsOf_cons (bin : Bin) (block : FreeBlock Bin) (free : List (FreeBlock Bin)) :
    startsOf bin (block :: free) =
      if block.bin = bin then block.start :: startsOf bin free else startsOf bin free := by
  unfold startsOf
  by_cases same : block.bin = bin
  · simp [same]
  · simp [same]

theorem startsOf_append (bin : Bin) (left right : List (FreeBlock Bin)) :
    startsOf bin (left ++ right) = startsOf bin left ++ startsOf bin right := by
  simp [startsOf]

theorem mem_startsOf {bin : Bin} {free : List (FreeBlock Bin)} {start : Nat} :
    start ∈ startsOf bin free ↔ ∃ block ∈ free, block.bin = bin ∧ block.start = start := by
  simp [startsOf, and_assoc]

theorem firstOf_mem {bin : Bin} {free : List (FreeBlock Bin)} {block : FreeBlock Bin}
    (found : firstOf bin free = some block) : block ∈ free ∧ block.bin = bin :=
  ⟨List.mem_of_find?_eq_some found, by simpa using List.find?_some found⟩

theorem dropFirst_perm {bin : Bin} {free : List (FreeBlock Bin)} {block : FreeBlock Bin}
    (found : firstOf bin free = some block) :
    free.Perm (block :: dropFirst bin free) := by
  induction free with
  | nil => cases found
  | cons first rest induction =>
      unfold firstOf dropFirst at *
      by_cases same : first.bin = bin
      · simp only [List.find?_cons, same, decide_true, Option.some.injEq] at found
        simp [← found, same]
      · simp only [List.find?_cons, same, decide_false] at found
        simp only [List.eraseP_cons, same, decide_false, cond_false]
        exact ((induction found).cons first).trans (List.Perm.swap _ _ _)

theorem startsOf_firstOf {bin : Bin} {free : List (FreeBlock Bin)}
    {block : FreeBlock Bin} (found : firstOf bin free = some block) :
    startsOf bin free = block.start :: startsOf bin (dropFirst bin free) := by
  induction free with
  | nil => cases found
  | cons first rest induction =>
      unfold firstOf dropFirst at *
      by_cases same : first.bin = bin
      · simp only [List.find?_cons, same, decide_true, Option.some.injEq] at found
        simp [startsOf_cons, ← found, same]
      · simp only [List.find?_cons, same, decide_false] at found
        simp only [List.eraseP_cons, same, decide_false, cond_false, startsOf_cons,
          if_false]
        exact induction found

theorem startsOf_dropFirst_of_ne {bin other : Bin} (different : other ≠ bin)
    (free : List (FreeBlock Bin)) :
    startsOf other (dropFirst bin free) = startsOf other free := by
  induction free with
  | nil => rfl
  | cons first rest induction =>
      unfold dropFirst at *
      by_cases same : first.bin = bin
      · simp [startsOf_cons, same, different.symm]
      · simp only [List.eraseP_cons, same, decide_false, cond_false, startsOf_cons,
          induction]

theorem firstOf_eq_none {bin : Bin} {free : List (FreeBlock Bin)}
    (missing : firstOf bin free = none) : startsOf bin free = [] := by
  rw [startsOf, List.map_eq_nil_iff, List.filter_eq_nil_iff]
  exact List.find?_eq_none.mp missing

namespace Chained

variable {memory other : Memory} {heads : Bin → Nat} {free : List (FreeBlock Bin)}

theorem initial : Chained memory (fun _ : Bin => 0) [] :=
  ⟨fun _ => rfl, fun _ => trivial⟩

/-- Only the first words of the free blocks matter. -/
theorem congr (chained : Chained memory heads free)
    (same : ∀ block ∈ free, loadPointer other block.start = loadPointer memory block.start) :
    Chained other heads free where
  head := chained.head
  linked bin := (chained.linked bin).congr fun start member => by
    obtain ⟨block, isFree, _, isStart⟩ := mem_startsOf.mp member
    exact isStart ▸ same block isFree

theorem start_ne_zero (chained : Chained memory heads free) {block : FreeBlock Bin}
    (member : block ∈ free) : block.start ≠ 0 :=
  (chained.linked block.bin).ne_zero _ (mem_startsOf.mpr ⟨block, member, rfl, rfl⟩)

theorem head_eq_zero_iff (chained : Chained memory heads free) (bin : Bin) :
    heads bin = 0 ↔ firstOf bin free = none := by
  rw [chained.head]
  cases found : firstOf bin free with
  | none => simp [firstOf_eq_none found]
  | some block =>
      have nonzero := chained.start_ne_zero (firstOf_mem found).1
      simp [startsOf_firstOf found, nonzero]

theorem firstOf_head (chained : Chained memory heads free) {bin : Bin}
    (nonempty : heads bin ≠ 0) :
    ∃ block, firstOf bin free = some block ∧ block.start = heads bin := by
  cases found : firstOf bin free with
  | none => exact absurd ((chained.head_eq_zero_iff bin).mpr found) nonempty
  | some block =>
      refine ⟨block, rfl, ?_⟩
      rw [chained.head, startsOf_firstOf found, List.headD_cons]

/-- Taking the first block of a bin off its list. -/
theorem pop (chained : Chained memory heads free) {bin : Bin} {block : FreeBlock Bin}
    (found : firstOf bin free = some block) :
    Chained memory (Function.update heads bin (loadPointer memory (heads bin)))
      (dropFirst bin free) := by
  have starts := startsOf_firstOf found
  have linked := starts ▸ chained.linked bin
  constructor
  · intro other
    by_cases same : other = bin
    · subst same
      rw [Function.update_self, chained.head, starts, List.headD_cons]
      exact linked.2.1
    · rw [Function.update_of_ne same, startsOf_dropFirst_of_ne same, chained.head]
  · intro other
    by_cases same : other = bin
    · exact same ▸ linked.2.2
    · exact startsOf_dropFirst_of_ne same free ▸ chained.linked other

/-- Linking a block in front of a bin. -/
theorem push (chained : Chained memory heads free) {block : FreeBlock Bin}
    (nonzero : block.start ≠ 0)
    (fits : ∀ other ∈ free, other.start < 2 ^ 64)
    (apart : ∀ other ∈ free, Apart block.start 8 other.start 8) :
    Chained (storePointer memory block.start (heads block.bin))
      (Function.update heads block.bin block.start) (block :: free) := by
  have kept : Chained (storePointer memory block.start (heads block.bin)) heads free :=
    chained.congr fun other member => loadPointer_storePointer_apart (apart other member)
  have small : heads block.bin < 2 ^ 64 := by
    by_cases empty : heads block.bin = 0
    · rw [empty]
      exact Nat.two_pow_pos 64
    · obtain ⟨first, found, isHead⟩ := chained.firstOf_head empty
      exact isHead ▸ fits first (firstOf_mem found).1
  constructor
  · intro bin
    by_cases same : bin = block.bin
    · rw [same, Function.update_self, startsOf_cons, if_pos rfl, List.headD_cons]
    · rw [Function.update_of_ne same, startsOf_cons, if_neg (Ne.symm same), chained.head]
  · intro bin
    rw [startsOf_cons]
    split
    · next same =>
        refine ⟨nonzero, ?_, kept.linked bin⟩
        rw [← same, ← chained.head]
        exact loadPointer_storePointer small
    · exact kept.linked bin

end Chained

end MallocSurvey.Library
