import MallocSurvey.Library.Slab

/-! # Slabs that are carved lazily

The cells of a slab from some index on were never handed out. The first of them has a tag,
and the free list ends with it; without such cells the list ends with null. -/

namespace MallocSurvey.Library

/-- The link of the first cell that was never handed out. -/
def freshTag : Nat := 1

/-- The links from a head pass some cells and end with `stop`. -/
def Follows (memory : Nat → Nat) (stop : Nat) : Nat → List Nat → Prop
  | head, [] => head = stop
  | head, cell :: rest => head = cell ∧ Follows memory stop (memory cell) rest

theorem Follows.congr {memory other : Nat → Nat} {stop head : Nat} {cells : List Nat}
    (follows : Follows memory stop head cells) (same : ∀ cell ∈ cells, other cell = memory cell) :
    Follows other stop head cells := by
  induction cells generalizing head with
  | nil => exact follows
  | cons cell rest induction =>
      refine ⟨follows.1, ?_⟩
      rw [same cell List.mem_cons_self]
      exact induction follows.2 fun other member => same other (List.mem_cons_of_mem _ member)

theorem run_snoc (first count stride : Nat) :
    run first (count + 1) stride = run first count stride ++ [first + count * stride] := by
  unfold run
  rw [List.range_succ, List.map_append]
  rfl

/-- What ends the free list. -/
def slabStop (base stride count fresh : Nat) : Nat :=
  if fresh < count then base + fresh * stride else 0

structure TaggedSlab (memory : Nat → Nat) (base stride count head : Nat) (live free : List Nat)
    (fresh : Nat) : Prop where
  above : freshTag < base
  positive : 0 < stride
  follows : Follows memory (slabStop base stride count fresh) head free
  tag : fresh < count → memory (base + fresh * stride) = freshTag ∧ fresh + 1 < count
  bound : fresh ≤ count
  perm : (free ++ live).Perm (run base fresh stride)

/-- The first free cell is taken: the new head and memory. `last` is the last cell. -/
def takeCell (memory : Nat → Nat) (stride last head : Nat) : Nat × (Nat → Nat) :=
  if memory head = freshTag then
    (head + stride, Function.update memory (head + stride)
      (if head + stride = last then 0 else freshTag))
  else (memory head, memory)

namespace TaggedSlab

variable {memory other : Nat → Nat} {base stride count head fresh cell : Nat}
  {live after free : List Nat}

/-- No cell was handed out. -/
theorem new (isBase : freshTag < base) (positive : 0 < stride) (cells : 2 ≤ count)
    (tagged : memory base = freshTag) :
    TaggedSlab memory base stride count base [] [] 0 where
  above := isBase
  positive := positive
  follows := by
    unfold slabStop
    rw [if_pos (Nat.lt_of_lt_of_le Nat.two_pos cells), Nat.zero_mul]
    rfl
  tag := by
    intro _
    rw [Nat.zero_mul]
    exact ⟨tagged, cells⟩
  bound := Nat.zero_le count
  perm := List.Perm.refl _

variable (slab : TaggedSlab memory base stride count head live free fresh)

include slab

/-- Cells that were handed out before lie before the fresh ones. -/
theorem mem_run (member : cell ∈ free ∨ cell ∈ live) : cell ∈ run base fresh stride :=
  slab.perm.mem_iff.mp (List.mem_append.mpr member)

theorem mem_cells (member : cell ∈ free ∨ cell ∈ live) : cell ∈ run base count stride := by
  obtain ⟨index, inRange, isCell⟩ := Library.mem_run.mp (slab.mem_run member)
  exact Library.mem_run.mpr ⟨index, Nat.lt_of_lt_of_le inRange slab.bound, isCell⟩

theorem nodup : (free ++ live).Nodup :=
  slab.perm.nodup_iff.mpr (run_nodup base fresh slab.positive)

theorem cell_gt (member : cell ∈ free ∨ cell ∈ live) : freshTag < cell := by
  obtain ⟨index, _, isCell⟩ := Library.mem_run.mp (slab.mem_run member)
  have above := slab.above
  omega

theorem stop_not_mem (more : fresh < count) : base + fresh * stride ∉ free ++ live := by
  intro member
  obtain ⟨index, below, isCell⟩ := Library.mem_run.mp (slab.mem_run (List.mem_append.mp member))
  have product := (Nat.mul_lt_mul_right slab.positive).mpr below
  omega

/-- A head that is not null is a cell that is not in use. -/
theorem head_free (nonempty : head ≠ 0) : head ∈ run base count stride ∧ head ∉ live := by
  have follows := slab.follows
  cases free with
  | nil =>
      have isStop : head = slabStop base stride count fresh := follows
      unfold slabStop at isStop
      split at isStop
      · next more =>
          have absent := slab.stop_not_mem more
          rw [List.nil_append] at absent
          exact ⟨Library.mem_run.mpr ⟨fresh, more, isStop⟩, isStop ▸ absent⟩
      · exact absurd isStop nonempty
  | cons first rest =>
      have isFirst : head = first := follows.1
      have distinct := (List.nodup_append.mp slab.nodup).2.2
      rw [isFirst]
      refine ⟨slab.mem_cells (.inl List.mem_cons_self), fun isLive => ?_⟩
      exact distinct first List.mem_cons_self first isLive rfl

/-- Only the links of free cells matter. -/
theorem congr (same : ∀ cell ∈ run base count stride, cell ∉ live → other cell = memory cell) :
    TaggedSlab other base stride count head live free fresh where
  above := slab.above
  positive := slab.positive
  follows := by
    apply slab.follows.congr
    intro cell member
    apply same cell (slab.mem_cells (.inl member))
    exact fun isLive => (List.nodup_append.mp slab.nodup).2.2 cell member cell isLive rfl
  tag := by
    intro more
    have absent := slab.stop_not_mem more
    rw [same _ (Library.mem_run.mpr ⟨fresh, more, rfl⟩)
      fun isLive => absent (List.mem_append_right _ isLive)]
    exact slab.tag more
  bound := slab.bound
  perm := slab.perm

theorem permLive (perm : live.Perm after) :
    TaggedSlab memory base stride count head after free fresh :=
  { slab with perm := ((perm.symm.append_left free).trans slab.perm) }

/-- The first free cell is handed out; no cell that is in use is written. -/
theorem take (nonempty : head ≠ 0) :
    ∃ nextFree nextFresh,
      TaggedSlab (takeCell memory stride (base + (count - 1) * stride) head).2 base stride count
        (takeCell memory stride (base + (count - 1) * stride) head).1 (head :: live)
        nextFree nextFresh ∧
      ∀ place, place ∈ live ∨ place ∉ run base count stride →
        (takeCell memory stride (base + (count - 1) * stride) head).2 place = memory place := by
  have follows := slab.follows
  cases free with
  | nil =>
      have isStop : head = slabStop base stride count fresh := follows
      unfold slabStop at isStop
      split at isStop
      · next more =>
          obtain ⟨tagged, notLast⟩ := slab.tag more
          have isNext : head + stride = base + (fresh + 1) * stride := by
            rw [isStop, Nat.succ_mul, Nat.add_assoc]
          unfold takeCell
          rw [isStop, if_pos tagged, ← isStop, isNext]
          dsimp only
          have frame : ∀ place value, place ∈ live ∨ place ∉ run base count stride →
              Function.update memory (base + (fresh + 1) * stride) value place = memory place := by
            intro place value elsewhere
            apply Function.update_of_ne
            rintro rfl
            rcases elsewhere with isLive | outside
            · obtain ⟨index, below, isCell⟩ := Library.mem_run.mp (slab.mem_run (.inr isLive))
              have order := (Nat.mul_lt_mul_right slab.positive).mpr
                (show index < fresh + 1 by omega)
              omega
            · exact outside (Library.mem_run.mpr ⟨fresh + 1, notLast, rfl⟩)
          have taken : (head :: live).Perm (run base (fresh + 1) stride) := by
            rw [run_snoc, isStop]
            exact (slab.perm.cons _).trans (List.perm_append_singleton ..).symm
          by_cases isLast : fresh + 1 = count - 1
          · have sameCell : base + (fresh + 1) * stride = base + (count - 1) * stride := by
              rw [isLast]
            have isCount : fresh + 2 = count := by omega
            rw [if_pos sameCell]
            refine ⟨[base + (fresh + 1) * stride], count, ⟨slab.above, slab.positive, ⟨rfl, ?_⟩, ?_,
              Nat.le_refl count, ?_⟩, fun place => frame place 0⟩
            · unfold slabStop
              rw [Function.update_self, if_neg (Nat.lt_irrefl count)]
              rfl
            · exact fun impossible => absurd impossible (Nat.lt_irrefl count)
            · rw [← isCount, run_snoc]
              exact (taken.cons _).trans (List.perm_append_singleton ..).symm
          · have otherCell : base + (fresh + 1) * stride ≠ base + (count - 1) * stride := by
              intro same
              have product := Nat.eq_of_mul_eq_mul_right slab.positive (Nat.add_left_cancel same)
              exact isLast product
            rw [if_neg otherCell]
            refine ⟨[], fresh + 1, ⟨slab.above, slab.positive, ?_, ?_, Nat.le_of_lt notLast, taken⟩,
              fun place => frame place freshTag⟩
            · unfold slabStop
              rw [if_pos notLast]
              rfl
            · intro _
              rw [Function.update_self]
              exact ⟨rfl, by omega⟩
      · exact absurd isStop nonempty
  | cons first rest =>
      obtain ⟨isFirst, more⟩ := follows
      subst isFirst
      have untagged : memory head ≠ freshTag := by
        cases rest with
        | nil =>
            have isStop : memory head = slabStop base stride count fresh := more
            have above := slab.above
            unfold slabStop freshTag at *
            split at isStop <;> omega
        | cons second rest =>
            have isSecond : memory head = second := more.1
            rw [isSecond]
            exact Nat.ne_of_gt (slab.cell_gt (.inl (List.mem_cons_of_mem _ List.mem_cons_self)))
      unfold takeCell
      rw [if_neg untagged]
      exact ⟨rest, fresh, ⟨slab.above, slab.positive, more, slab.tag, slab.bound,
        List.perm_middle.trans slab.perm⟩, fun _ _ => rfl⟩

/-- A cell goes back to the slab. -/
theorem put (perm : live.Perm (cell :: after)) :
    TaggedSlab (Function.update memory cell head) base stride count cell after (cell :: free)
      fresh where
  above := slab.above
  positive := slab.positive
  follows := by
    have absent : cell ∉ free := fun isFree =>
      (List.nodup_append.mp slab.nodup).2.2 cell isFree cell
        (perm.mem_iff.mpr List.mem_cons_self) rfl
    refine ⟨rfl, ?_⟩
    rw [Function.update_self]
    apply slab.follows.congr
    intro other member
    exact Function.update_of_ne (ne_of_mem_of_not_mem member absent) _ _
  tag := by
    intro more
    have isLive : cell ∈ live := perm.mem_iff.mpr List.mem_cons_self
    have different : base + fresh * stride ≠ cell := by
      rintro rfl
      exact slab.stop_not_mem more (List.mem_append_right _ isLive)
    rw [Function.update_of_ne different]
    exact slab.tag more
  bound := slab.bound
  perm := (List.perm_middle.symm.trans (perm.symm.append_left free)).trans slab.perm

end TaggedSlab

end MallocSurvey.Library
