import MallocSurvey.Gjalloc.LogPages

/-! # `ba_log_alloc` and `ba_log_free` -/

namespace MallocSurvey.Gjalloc

open Library

variable {pages : Nat → Nat} {blockSize first size : Nat} {header : Nat → LogHeader}
  {memory : Words} {live after : List Nat} {block k : Nat}

/-- The first free block of the last page is taken. -/
theorem PagesInv.take (inv : PagesInv pages blockSize first header memory size live)
    (wide : 0 < blockSize) (nonempty : (header (pages size)).first ≠ 0) :
    (header (pages size)).first ∉ live ∧
      PagesInv pages blockSize first
        (Function.update header (pages size)
          ⟨(takeCell memory blockSize
              (pages size + logPageSize + (first * 2 ^ size - 1) * blockSize)
              (header (pages size)).first).1, (header (pages size)).used + 1⟩)
        (takeCell memory blockSize
          (pages size + logPageSize + (first * 2 ^ size - 1) * blockSize)
          (header (pages size)).first).2 size ((header (pages size)).first :: live) := by
  obtain ⟨nonzero, used, free, fresh, slab⟩ := inv.page size (Nat.le_refl size)
  obtain ⟨isCell, notLive⟩ := slab.head_free nonempty
  have isNew : (header (pages size)).first ∉ live :=
    fun member => notLive (mem_liveIn.mpr ⟨member, isCell⟩)
  obtain ⟨nextFree, nextFresh, taken, frame⟩ := slab.take nonempty
  refine ⟨isNew, ?_, inv.apart, ?_, List.nodup_cons.mpr ⟨isNew, inv.nodup⟩⟩
  · intro k inRange
    by_cases same : k = size
    · subst same
      refine ⟨nonzero, ?_, nextFree, nextFresh, ?_⟩
      · rw [Function.update_self, liveIn_cons_self isCell, List.length_cons, ← used]
      · rw [Function.update_self, liveIn_cons_self isCell]
        exact taken
    · obtain ⟨otherPage, otherCells⟩ := inv.other wide inRange (Nat.le_refl size) same
      have absent : (header (pages size)).first ∉ cellsOf pages blockSize first k :=
        fun member => otherCells _ member isCell
      refine (inv.page k inRange).congr rfl (Function.update_of_ne otherPage _ _)
        (liveIn_cons_of_not_mem absent) ?_
      intro cell member _
      exact frame cell (.inr (otherCells cell member))
  · intro block member
    rcases List.mem_cons.mp member with rfl | member
    · exact ⟨size, Nat.le_refl size, isCell⟩
    · exact inv.covered block member

/-- A page comes after the last one. -/
theorem PagesInv.grow (inv : PagesInv pages blockSize first header memory size live)
    (wide : 0 < blockSize) (two : 2 ≤ first) {answer : Nat} (nonzero : answer ≠ 0)
    (apart : ∀ k ≤ size, Library.Apart (pages k) (logPageBytes blockSize (first * 2 ^ k)) answer
      (logPageBytes blockSize (first * 2 ^ (size + 1)))) :
    PagesInv (Function.update pages (size + 1) answer) blockSize first
      (Function.update header answer ⟨answer + logPageSize, 0⟩)
      (Function.update memory (answer + logPageSize) baOne) (size + 1) live := by
  have width : logPageSize = 16 := rfl
  have samePage : ∀ k ≤ size, Function.update pages (size + 1) answer k = pages k :=
    fun k inRange => Function.update_of_ne (by omega) _ _
  have sameCells : ∀ k ≤ size, cellsOf (Function.update pages (size + 1) answer) blockSize first k =
      cellsOf pages blockSize first k := by
    intro k inRange
    unfold cellsOf
    rw [samePage k inRange]
  have outside : ∀ k ≤ size, ∀ cell ∈ cellsOf pages blockSize first k,
      cell < answer ∨ answer + logPageBytes blockSize (first * 2 ^ (size + 1)) ≤ cell := by
    intro k inRange cell member
    have between := apart k inRange
    have bounds := mem_cellsOf_bounds member
    unfold Library.Apart at between
    omega
  have cells : 2 ≤ first * 2 ^ (size + 1) :=
    Nat.le_trans two (Nat.le_mul_of_pos_right first (Nat.two_pow_pos _))
  have someCells : blockSize ≤ blockSize * (first * 2 ^ (size + 1)) :=
    Nat.le_mul_of_pos_right blockSize (by omega)
  have empty : liveIn (Function.update pages (size + 1) answer) blockSize first live (size + 1) =
      [] := by
    rw [List.eq_nil_iff_forall_not_mem]
    intro block member
    obtain ⟨isLive, isCell⟩ := mem_liveIn.mp member
    obtain ⟨k, inRange, isOld⟩ := inv.covered block isLive
    have bounds := mem_cellsOf_bounds isCell
    rw [Function.update_self] at bounds
    have away := outside k inRange block isOld
    unfold logPageBytes at *
    omega
  refine ⟨?_, ?_, ?_, inv.nodup⟩
  · intro k inRange
    by_cases same : k = size + 1
    · subst same
      refine ⟨?_, ?_, [], 0, ?_⟩
      · rwa [Function.update_self]
      · rw [Function.update_self, Function.update_self, empty]
        rfl
      · rw [Function.update_self, Function.update_self, empty]
        exact TaggedSlab.new (by unfold freshTag; omega) wide cells (Function.update_self ..)
    · have before : k ≤ size := by omega
      have between := apart k before
      have otherPage : pages k ≠ answer := by
        intro equal
        unfold Library.Apart logPageBytes at between
        omega
      refine (inv.page k before).congr (samePage k before) (Function.update_of_ne otherPage _ _) ?_ ?_
      · unfold liveIn
        rw [sameCells k before]
      · intro cell member _
        apply Function.update_of_ne
        have away := outside k before cell member
        unfold logPageBytes at away
        omega
  · intro i leftIn j rightIn different
    by_cases leftNew : i = size + 1
    · subst leftNew
      have before : j ≤ size := by omega
      rw [Function.update_self, samePage j before]
      exact (apart j before).symm
    · have leftBefore : i ≤ size := by omega
      rw [samePage i leftBefore]
      by_cases rightNew : j = size + 1
      · subst rightNew
        rw [Function.update_self]
        exact apart i leftBefore
      · have rightBefore : j ≤ size := by omega
        rw [samePage j rightBefore]
        exact inv.apart i leftBefore j rightBefore different
  · intro block member
    obtain ⟨k, inRange, isCell⟩ := inv.covered block member
    exact ⟨k, Nat.le_succ_of_le inRange, (sameCells k inRange).symm ▸ isCell⟩

/-- A block goes back to its page. -/
theorem PagesInv.put (inv : PagesInv pages blockSize first header memory size live)
    (wide : 0 < blockSize) (perm : live.Perm (block :: after)) (inRange : k ≤ size)
    (isCell : block ∈ cellsOf pages blockSize first k) :
    PagesInv pages blockSize first
      (Function.update header (pages k) ⟨block, (header (pages k)).used - 1⟩)
      (Function.update memory block (header (pages k)).first) size after := by
  have sameLive : ∀ j, (liveIn pages blockSize first live j).Perm
      (liveIn pages blockSize first (block :: after) j) := fun j => liveIn_perm perm
  obtain ⟨nonzero, used, free, fresh, slab⟩ := inv.page k inRange
  have inPage := sameLive k
  rw [liveIn_cons_self isCell] at inPage
  refine ⟨?_, inv.apart, ?_, (List.nodup_cons.mp (perm.nodup_iff.mp inv.nodup)).2⟩
  · intro j otherIn
    by_cases same : j = k
    · subst same
      refine ⟨nonzero, ?_, block :: free, fresh, ?_⟩
      · rw [Function.update_self]
        dsimp only
        rw [used, inPage.length_eq, List.length_cons, Nat.add_sub_cancel]
      · rw [Function.update_self]
        exact slab.put inPage
    · obtain ⟨otherPage, otherCells⟩ := inv.other wide otherIn inRange same
      have absent : block ∉ cellsOf pages blockSize first j :=
        fun member => otherCells block member isCell
      obtain ⟨otherNonzero, otherUsed, otherFree, otherFresh, otherSlab⟩ := inv.page j otherIn
      have kept := sameLive j
      rw [liveIn_cons_of_not_mem absent] at kept
      have moved : PageOk pages blockSize first header memory after j :=
        ⟨otherNonzero, otherUsed.trans kept.length_eq, otherFree, otherFresh,
          otherSlab.permLive kept⟩
      refine moved.congr rfl (Function.update_of_ne otherPage _ _) rfl ?_
      intro cell member _
      exact Function.update_of_ne (ne_of_mem_of_not_mem member absent) _ _
  · intro other member
    exact inv.covered other (perm.mem_iff.mpr (List.mem_cons_of_mem _ member))

/-- The last page goes when none of its blocks is in use. -/
theorem PagesInv.drop (inv : PagesInv pages blockSize first header memory (size + 1) live)
    (unused : (header (pages (size + 1))).used = 0) :
    PagesInv (Function.update pages (size + 1) 0) blockSize first header memory size live := by
  have samePage : ∀ k ≤ size, Function.update pages (size + 1) 0 k = pages k :=
    fun k inRange => Function.update_of_ne (by omega) _ _
  have sameCells : ∀ k ≤ size, cellsOf (Function.update pages (size + 1) 0) blockSize first k =
      cellsOf pages blockSize first k := by
    intro k inRange
    unfold cellsOf
    rw [samePage k inRange]
  have empty : liveIn pages blockSize first live (size + 1) = [] :=
    List.eq_nil_of_length_eq_zero
      ((inv.page (size + 1) (Nat.le_refl _)).used.symm.trans unused)
  refine ⟨?_, ?_, ?_, inv.nodup⟩
  · intro k inRange
    refine (inv.page k (Nat.le_succ_of_le inRange)).congr (samePage k inRange) rfl ?_
      fun _ _ _ => rfl
    unfold liveIn
    rw [sameCells k inRange]
  · intro i leftIn j rightIn different
    rw [samePage i leftIn, samePage j rightIn]
    exact inv.apart i (Nat.le_succ_of_le leftIn) j (Nat.le_succ_of_le rightIn) different
  · intro block member
    obtain ⟨k, inRange, isCell⟩ := inv.covered block member
    have notLast : k ≠ size + 1 := by
      rintro rfl
      have isLive := mem_liveIn.mpr ⟨member, isCell⟩
      rw [empty] at isLive
      cases isLive
    have before : k ≤ size := by omega
    exact ⟨k, before, (sameCells k before).symm ▸ isCell⟩

/-- The program writes to a block in use. -/
theorem PagesInv.write (inv : PagesInv pages blockSize first header memory size live)
    (member : block ∈ live) {place : Nat} (above : block ≤ place)
    (below : place < block + blockSize) (value : Nat) :
    PagesInv pages blockSize first header (Function.update memory place value) size live := by
  obtain ⟨owner, ownerIn, isCell⟩ := inv.covered block member
  refine ⟨?_, inv.apart, inv.covered, inv.nodup⟩
  intro k inRange
  refine (inv.page k inRange).congr rfl rfl rfl ?_
  intro cell cellIn notLive
  apply Function.update_of_ne
  by_cases same : owner = k
  · subst same
    have different : cell ≠ block := by
      rintro rfl
      exact notLive (mem_liveIn.mpr ⟨member, isCell⟩)
    have between := run_apart cellIn isCell different
    unfold Library.Apart at between
    omega
  · have between := inv.apart owner ownerIn k inRange same
    have bounds := mem_cellsOf_bounds isCell
    have cellBounds := mem_cellsOf_bounds cellIn
    unfold Library.Apart at between
    omega

/-! ## The search -/

/-- The block is found in its page, from any page after it. -/
theorem PagesInv.findPage_eq (inv : PagesInv pages blockSize first header memory size live)
    (wide : 0 < blockSize) (two : 2 ≤ first)
    (fits : logPageBytes blockSize (first * 2 ^ size) < 2 ^ 32) (inRange : k ≤ size)
    (isCell : block ∈ cellsOf pages blockSize first k) {i : Nat} (atLeast : k ≤ i)
    (atMost : i ≤ size) :
    Log.findPage pages block i (logLayout blockSize (first * 2 ^ i)) = some k := by
  have bounds := mem_cellsOf_bounds isCell
  have inOwn : (logLayout blockSize (first * 2 ^ k)).checkPtr (pages k) block := by
    obtain ⟨index, below, isBlock⟩ := mem_run.mp isCell
    have product := Nat.mul_le_mul_right blockSize (Nat.le_pred_of_lt below)
    unfold Layout.checkPtr logLayout
    dsimp only
    rw [Nat.pred_eq_sub_one] at product
    omega
  induction i with
  | zero =>
      cases Nat.le_zero.mp atLeast
      exact if_pos inOwn
  | succ i induction =>
      by_cases same : k = i + 1
      · subst same
        exact if_pos inOwn
      · have between := inv.apart k inRange (i + 1) atMost same
        have elsewhere : ¬ (logLayout blockSize (first * 2 ^ (i + 1))).checkPtr (pages (i + 1))
            block := by
          have cells : 0 < first * 2 ^ (i + 1) :=
            Nat.mul_pos (by omega) (Nat.two_pow_pos _)
          have last : (first * 2 ^ (i + 1) - 1) * blockSize + blockSize =
              blockSize * (first * 2 ^ (i + 1)) := by
            rw [← Nat.succ_mul, Nat.succ_eq_add_one, Nat.sub_add_cancel cells, Nat.mul_comm]
          unfold Layout.checkPtr logLayout
          dsimp only
          unfold Library.Apart logPageBytes at between
          unfold logPageBytes at bounds
          omega
        have doubled : first * 2 ^ (i + 1) = 2 * (first * 2 ^ i) := by
          rw [Nat.pow_succ, ← Nat.mul_assoc, Nat.mul_comm]
        have cells : 0 < first * 2 ^ i := Nat.mul_pos (by omega) (Nat.two_pow_pos _)
        have smaller : first * 2 ^ (i + 1) ≤ first * 2 ^ size :=
          Nat.mul_le_mul_left first (Nat.pow_le_pow_right (by decide) atMost)
        have fitting := Nat.lt_of_le_of_lt (@logPageBytes_mono blockSize _ _ smaller) fits
        rw [doubled] at fitting
        refine (if_neg elsewhere).trans ?_
        rw [doubled, baHalfLayout_eq cells wide fitting]
        exact induction (by omega) (by omega)

end MallocSurvey.Gjalloc
