import MallocSurvey.Library.ByteMemory
import MallocSurvey.Library.CellList
import Mathlib.Data.List.Basic
import Mathlib.Data.List.Nodup
import Mathlib.Data.List.Range
import Mathlib.Logic.Function.Basic

/-! # Regions carved into equal pieces

A region of fixed size is handed out piece by piece from its front. The regions
with an uncarved tail form a chain: the last word of each, which is still
uncarved, holds the address where the next tail starts. -/

namespace MallocSurvey.Library

/-- `count` addresses from `first` on, `stride` apart. -/
def run (first count stride : Nat) : List Nat :=
  (List.range count).map fun index => first + index * stride

@[simp] theorem run_length (first count stride : Nat) :
    (run first count stride).length = count := by
  simp [run]

@[simp] theorem run_zero (first stride : Nat) : run first 0 stride = [] := rfl

theorem mem_run {first count stride address : Nat} :
    address ∈ run first count stride ↔
      ∃ index < count, address = first + index * stride := by
  simp only [run, List.mem_map, List.mem_range]
  constructor
  · intro ⟨index, inRange, equal⟩
    exact ⟨index, inRange, equal.symm⟩
  · intro ⟨index, inRange, equal⟩
    exact ⟨index, inRange, equal.symm⟩

theorem run_add (first left right stride : Nat) :
    run first (left + right) stride =
      run first left stride ++ run (first + left * stride) right stride := by
  simp only [run, List.range_add, List.map_append, List.map_map]
  congr 1
  apply List.map_congr_left
  intro index _
  simp only [Function.comp_apply, Nat.add_mul, Nat.add_assoc]

theorem run_succ (first count stride : Nat) :
    run first (count + 1) stride = first :: run (first + stride) count stride := by
  rw [Nat.add_comm, run_add, Nat.one_mul]
  simp [run]

theorem run_nodup (first count : Nat) {stride : Nat} (positive : 0 < stride) :
    (run first count stride).Nodup := by
  apply List.Nodup.map _ List.nodup_range
  intro left right equal
  exact Nat.eq_of_mul_eq_mul_right positive (Nat.add_left_cancel equal)

/-- Disjoint lists, one for each owner, have no duplicates together. -/
theorem flatMap_nodup_of_owner {Owner Item : Type} {owners : List Owner}
    {items : Owner → List Item} (ownerOf : Item → Owner) (nodup : owners.Nodup)
    (each : ∀ owner ∈ owners, (items owner).Nodup)
    (owns : ∀ owner ∈ owners, ∀ item ∈ items owner, ownerOf item = owner) :
    (owners.flatMap items).Nodup := by
  rw [List.nodup_flatMap]
  refine ⟨each, ?_⟩
  apply List.Pairwise.imp_of_mem _ nodup
  intro left right leftMem rightMem different item inLeft inRight
  exact different ((owns left leftMem item inLeft).symm.trans (owns right rightMem item inRight))

/-- End of the region that `address` points into. -/
def regionEnd (size address : Nat) : Nat := address / size * size + size

theorem regionEnd_eq {size base offset : Nat} (aligned : base % size = 0)
    (inside : offset < size) : regionEnd size (base + offset) = base + size := by
  have divides : size ∣ base := Nat.dvd_of_mod_eq_zero aligned
  obtain ⟨index, rfl⟩ := divides
  rw [regionEnd, Nat.mul_add_div (by omega), Nat.div_eq_of_lt inside, Nat.add_zero,
    Nat.mul_comm]

/-- The uncarved tails from `head` on, `lastWord` being the memory of the last
words by region end. -/
inductive TailChain (size : Nat) (lastWord : Nat → Nat) : Nat → List Nat → Prop
  | nil : TailChain size lastWord 0 []
  | cons {head : Nat} {rest : List Nat} : head ≠ 0 →
      TailChain size lastWord (lastWord (regionEnd size head)) rest →
      TailChain size lastWord head (head :: rest)

namespace TailChain

variable {size head : Nat} {lastWord : Nat → Nat} {tails : List Nat}

theorem head_eq_zero_iff (chain : TailChain size lastWord head tails) :
    head = 0 ↔ tails = [] := by
  cases chain with
  | nil => simp
  | cons nonzero _ => simp [nonzero]

theorem cons_iff {first : Nat} {rest : List Nat} :
    TailChain size lastWord head (first :: rest) ↔
      head = first ∧ first ≠ 0 ∧
        TailChain size lastWord (lastWord (regionEnd size first)) rest := by
  constructor
  · intro chain
    cases chain with
    | cons nonzero restChain => exact ⟨rfl, nonzero, restChain⟩
  · intro ⟨isHead, nonzero, restChain⟩
    subst isHead
    exact .cons nonzero restChain

/-- Only the last words of the regions in the chain matter. -/
theorem congr (chain : TailChain size lastWord head tails) {other : Nat → Nat}
    (same : ∀ tail ∈ tails,
      other (regionEnd size tail) = lastWord (regionEnd size tail)) :
    TailChain size other head tails := by
  induction chain with
  | nil => exact .nil
  | @cons head rest nonzero _ induction =>
      refine .cons nonzero ?_
      rw [same head List.mem_cons_self]
      exact induction fun tail member => same tail (List.mem_cons_of_mem _ member)

/-- Carving moves the head within its region. -/
theorem advance {next : Nat} {rest : List Nat}
    (chain : TailChain size lastWord head (head :: rest))
    (sameRegion : regionEnd size next = regionEnd size head) (nonzero : next ≠ 0) :
    TailChain size lastWord next (next :: rest) := by
  cases chain with
  | cons _ restChain => exact .cons nonzero (sameRegion ▸ restChain)

end TailChain

end MallocSurvey.Library

/-! # Slabs

A slab is a region of equal blocks. The free ones are linked, each through a word of
`width` bytes at its start; the others are live. -/

namespace MallocSurvey.Library

/-- The memory after the blocks of a slab have been linked, the last one to null. -/
def linkRun (width stride : Nat) : Nat → Nat → Memory → Memory
  | 0, start, memory => storeBytes memory start width 0
  | left + 1, start, memory =>
      linkRun width stride left (start + stride)
        (storeBytes memory start width (start + stride))

structure Slab (memory : Memory) (width base stride count head : Nat) (live free : List Nat) :
    Prop where
  head : head = free.headD 0
  linked : Linked id (fun start => loadBytes memory start width) free
  blocks : (free ++ live).Perm (run base count stride)

variable {memory other : Memory} {width base stride count head : Nat} {live free : List Nat}

theorem run_bounds {start : Nat} (member : start ∈ run base count stride) :
    base ≤ start ∧ start + stride ≤ base + stride * count := by
  obtain ⟨index, inRange, isStart⟩ := mem_run.mp member
  have product := Nat.mul_le_mul_left stride (Nat.succ_le_of_lt inRange)
  rw [Nat.mul_succ, Nat.mul_comm] at product
  omega

theorem run_apart {left right : Nat} (leftMember : left ∈ run base count stride)
    (rightMember : right ∈ run base count stride) (different : left ≠ right) :
    Apart left stride right stride := by
  obtain ⟨first, _, isLeft⟩ := mem_run.mp leftMember
  obtain ⟨second, _, isRight⟩ := mem_run.mp rightMember
  unfold Apart
  rcases Nat.lt_trichotomy first second with below | same | above
  · have product := Nat.mul_le_mul_right stride (Nat.succ_le_of_lt below)
    rw [Nat.succ_mul] at product
    omega
  · rw [same] at isLeft
    omega
  · have product := Nat.mul_le_mul_right stride (Nat.succ_le_of_lt above)
    rw [Nat.succ_mul] at product
    omega

theorem linkRun_spec (wide : width ≤ stride) (positive : 0 < stride) (left : Nat) :
    ∀ (start : Nat) (memory : Memory), start ≠ 0 → start + stride * (left + 1) ≤ 256 ^ width →
      Linked id (fun place => loadBytes (linkRun width stride left start memory) place width)
        (run start (left + 1) stride) ∧
      ∀ place, place < start ∨ start + stride * (left + 1) ≤ place →
        linkRun width stride left start memory place = memory place := by
  induction left with
  | zero =>
      intro start memory nonzero fits
      rw [run_succ, run_zero]
      refine ⟨⟨nonzero, loadBytes_storeBytes (Nat.pow_pos (by decide)), trivial⟩, ?_⟩
      intro place outside
      exact storeBytes_outside (by omega)
  | succ left induction =>
      intro start memory nonzero fits
      rw [Nat.mul_succ] at fits
      obtain ⟨linked, frame⟩ := induction (start + stride)
        (storeBytes memory start width (start + stride)) (by omega) (by omega)
      rw [run_succ]
      refine ⟨⟨nonzero, ?_, linked⟩, ?_⟩
      · have kept : loadBytes (linkRun width stride (left + 1) start memory) start width =
            loadBytes (storeBytes memory start width (start + stride)) start width := by
          apply loadBytes_congr
          intro place _ below
          exact frame place (by omega)
        rw [run_succ]
        refine kept.trans (loadBytes_storeBytes ?_)
        have more : 0 < stride * (left + 1) := Nat.mul_pos positive (Nat.succ_pos left)
        omega
      · intro place outside
        rw [Nat.mul_succ] at outside
        exact (frame place (by omega)).trans (storeBytes_outside (by omega))

namespace Slab

/-- A slab whose blocks have just been linked. -/
theorem linkRun (wide : width ≤ stride) (positive : 0 < stride) (some_block : 0 < count)
    (nonzero : base ≠ 0) (fits : base + stride * count ≤ 256 ^ width) (memory : Memory) :
    Slab (Library.linkRun width stride (count - 1) base memory) width base stride count base []
      (run base count stride) := by
  have blocks : count - 1 + 1 = count := Nat.sub_add_cancel some_block
  obtain ⟨linked, _⟩ := linkRun_spec wide positive (count - 1) base memory nonzero
    (by rw [blocks]; exact fits)
  rw [blocks] at linked
  refine ⟨?_, linked, by rw [List.append_nil]⟩
  rw [← blocks, run_succ]
  rfl

theorem mem_run (slab : Slab memory width base stride count head live free) {start : Nat}
    (member : start ∈ free ∨ start ∈ live) : start ∈ run base count stride :=
  slab.blocks.mem_iff.mp (List.mem_append.mpr member)

theorem nodup (slab : Slab memory width base stride count head live free)
    (positive : 0 < stride) : (free ++ live).Nodup :=
  slab.blocks.nodup_iff.mpr (run_nodup _ _ positive)

theorem length (slab : Slab memory width base stride count head live free) :
    free.length + live.length = count := by
  rw [← List.length_append, slab.blocks.length_eq, run_length]

theorem head_eq_zero_iff (slab : Slab memory width base stride count head live free) :
    head = 0 ↔ free = [] := by
  rw [slab.head]
  cases free with
  | nil => exact iff_of_true rfl rfl
  | cons first rest => exact iff_of_false slab.linked.1 (List.cons_ne_nil _ _)

theorem head_lt (slab : Slab memory width base stride count head live free)
    (positive : 0 < stride) (fits : base + stride * count ≤ 256 ^ width) : head < 256 ^ width := by
  rw [slab.head]
  cases free with
  | nil => exact Nat.pow_pos (by decide)
  | cons first rest =>
      have bounds := run_bounds (slab.mem_run (.inl List.mem_cons_self))
      rw [List.headD_cons]
      omega

/-- Only the words of the free blocks matter. -/
theorem congr (slab : Slab memory width base stride count head live free)
    (same : ∀ start ∈ free, ∀ place, start ≤ place → place < start + width →
      other place = memory place) :
    Slab other width base stride count head live free where
  head := slab.head
  linked := slab.linked.congr fun start member => loadBytes_congr (same start member)
  blocks := slab.blocks

/-- What happens outside the region of a slab does not matter. -/
theorem congr_outside (slab : Slab memory width base stride count head live free)
    (wide : width ≤ stride)
    (same : ∀ place, base ≤ place → place < base + stride * count → other place = memory place) :
    Slab other width base stride count head live free := by
  apply slab.congr
  intro start member place above below
  have bounds := run_bounds (slab.mem_run (.inl member))
  exact same place (by omega) (by omega)

/-- A write to a live block does not matter. -/
theorem write (slab : Slab memory width base stride count head live free)
    (wide : width ≤ stride) (positive : 0 < stride) {start place : Nat} (isLive : start ∈ live)
    (above : start ≤ place) (below : place < start + stride) (value : UInt8) :
    Slab (Function.update memory place value) width base stride count head live free := by
  apply slab.congr
  intro block isFree byte byteAbove byteBelow
  have different : block ≠ start := fun same =>
    (List.nodup_append.mp (slab.nodup positive)).2.2 block isFree start isLive same
  have between := run_apart (slab.mem_run (.inl isFree)) (slab.mem_run (.inr isLive)) different
  unfold Apart at between
  exact Function.update_of_ne (by omega) _ _

theorem perm {next : List Nat} (slab : Slab memory width base stride count head live free)
    (perm : next.Perm live) : Slab memory width base stride count head next free :=
  { slab with blocks := (perm.append_left free).trans slab.blocks }

/-- The first free block becomes live. -/
theorem take (slab : Slab memory width base stride count head live free) (some_free : head ≠ 0) :
    ∃ rest, free = head :: rest ∧
      Slab memory width base stride count (loadBytes memory head width) (head :: live) rest := by
  have isHead := slab.head
  cases free with
  | nil => exact absurd isHead some_free
  | cons first rest =>
      rw [List.headD_cons] at isHead
      subst isHead
      exact ⟨rest, rfl, slab.linked.2.1, slab.linked.2.2, List.perm_middle.trans slab.blocks⟩

/-- A live block becomes the first free one. -/
theorem put {start : Nat} (slab : Slab memory width base stride count head (start :: live) free)
    (wide : width ≤ stride) (positive : 0 < stride) (nonzero : base ≠ 0)
    (fits : base + stride * count ≤ 256 ^ width) :
    Slab (storeBytes memory start width head) width base stride count start live
      (start :: free) := by
  have isLive : start ∈ free ∨ start ∈ start :: live := .inr List.mem_cons_self
  have isRun := slab.mem_run isLive
  refine ⟨rfl, ⟨?_, ?_, ?_⟩, List.perm_middle.symm.trans slab.blocks⟩
  · have bounds := run_bounds isRun
    omega
  · rw [← slab.head]
    exact loadBytes_storeBytes (slab.head_lt positive fits)
  · apply slab.linked.congr
    intro block isFree
    have different : block ≠ start := fun same =>
      (List.nodup_append.mp (slab.nodup positive)).2.2 block isFree start List.mem_cons_self same
    have between := run_apart isRun (slab.mem_run (.inl isFree)) (Ne.symm different)
    apply loadBytes_storeBytes_apart
    unfold Apart at between ⊢
    dsimp only [id]
    omega

end Slab

end MallocSurvey.Library
