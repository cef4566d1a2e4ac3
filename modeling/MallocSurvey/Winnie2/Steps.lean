import MallocSurvey.Winnie2.Invariant

/-! # Steps of a program that meets the adapter's conditions -/

namespace MallocSurvey.Winnie2

open Library

/-! ## A new large block -/

/-- Blocks that are carved next to each other and linked in order. -/
theorem linked_run {memory : Memory} {start stride count : Nat} (nonzero : start ≠ 0)
    (links : ∀ i < count, loadPointer memory (start + i * stride) =
      if i + 1 = count then 0 else start + (i + 1) * stride) :
    Linked id (loadPointer memory) (run start count stride) := by
  induction count generalizing start with
  | zero => trivial
  | succ count induction =>
      rw [run_succ]
      have first := links 0 (Nat.succ_pos count)
      rw [Nat.zero_mul, Nat.add_zero, Nat.zero_add, Nat.one_mul] at first
      refine ⟨nonzero, ?_, induction (by omega) ?_⟩
      · rw [id, first]
        cases count with
        | zero => rfl
        | succ count => rw [run_succ, List.headD_cons, if_neg (by omega)]
      · intro i inRange
        have link := links (i + 1) (by omega)
        have shift : ∀ j, start + stride + j * stride = start + (j + 1) * stride := by
          intro j
          rw [Nat.add_mul, Nat.one_mul]
          omega
        rw [shift, shift, link]
        simp only [Nat.add_right_cancel_iff]

theorem startsOf_carved (bin size start : Nat) (free : List (FreeBlock Nat)) :
    startsOf bin (carved size start free) =
      if size = bin then run start (nBlocks size) size ++ startsOf bin free
      else startsOf bin free := by
  rw [carved, startsOf_append]
  split
  · next same =>
      congr 1
      rw [startsOf, List.filter_eq_self.mpr (by simp [same]), List.map_map]
      exact List.map_id _
  · next different =>
      rw [startsOf, List.filter_eq_nil_iff.mpr (by simp [different]), List.map_nil,
        List.nil_append]

theorem countP_carved (bin size start : Nat) (free : List (FreeBlock Nat)) :
    (carved size start free).countP (fun block => block.bin = bin) =
      (if size = bin then nBlocks size else 0) +
        free.countP (fun block => block.bin = bin) := by
  rw [carved, List.countP_append]
  congr 1
  split
  · next same =>
      rw [List.countP_eq_length.mpr (by simp [same]), List.length_map, run_length]
  · next different => exact List.countP_eq_zero.mpr (by simp [different])

theorem carved_pieces_apart (size start : Nat) :
    ((run start (nBlocks size) size).map fun block =>
      (⟨block, size⟩ : Extent)).Pairwise Extent.Apart := by
  rw [run, List.map_map, List.pairwise_map]
  apply List.Pairwise.imp _ List.pairwise_lt_range
  intro left right before
  have step := Nat.mul_le_mul_right size (Nat.succ_le_of_lt before)
  rw [Nat.succ_mul] at step
  refine .inr (.inr (.inl ?_))
  simp only [Function.comp_apply]
  omega

theorem carved_piece_inside {size start block : Nat}
    (isPiece : block ∈ run start (nBlocks size) size) :
    Extent.Inside ⟨block, size⟩ ⟨start, largeBlockSize⟩ := by
  obtain ⟨i, inRange, rfl⟩ := mem_run.mp isPiece
  have step := Nat.mul_le_mul_right size (Nat.succ_le_of_lt inRange)
  have whole := nBlocks_mul_le size
  rw [Nat.succ_mul] at step
  exact ⟨Nat.le_add_right _ _, by simp only; omega⟩

section NewBlock

variable {sizeofT : Nat} {fa : FixedAllocator} {live : List Block}
  {free : List (FreeBlock Nat)} {chunks : List (Nat × Nat)} {size answer : Nat}

theorem chained_newBlock (inv : Inv sizeofT fa live free chunks) (word : 8 ≤ size)
    (small : size ≤ 256) (empty : fa.firstFrees size = 0)
    (fresh : Fresh fa ⟨answer, largeBlockSize⟩) :
    Chained (linkBlocks answer size fa.memory) (Function.update fa.firstFrees size answer)
      (carved size answer free) := by
  obtain ⟨links, others⟩ := linkBlocks_spec answer word fa.memory (nBlocks size)
  have whole := nBlocks_mul_le size
  have positive := nBlocks_pos word small
  have noBlocks : startsOf size free = [] :=
    firstOf_eq_none ((inv.chained.head_eq_zero_iff size).mp empty)
  have kept : Chained (linkBlocks answer size fa.memory) fa.firstFrees free := by
    apply inv.chained.congr
    intro block isFree
    apply loadPointer_congr
    intro place above below
    apply others
    have apart := inv.fresh_apart fresh
      (List.mem_append_right _ (List.mem_map_of_mem isFree))
    have large := (inv.freeOk block isFree).large
    have nonempty := fresh.nonempty
    simp only [Extent.Apart, Apart, freeExtent] at apart nonempty
    omega
  have linked : Linked id (loadPointer (linkBlocks answer size fa.memory))
      (run answer (nBlocks size) size) := by
    apply linked_run (Nat.ne_of_gt fresh.nonzero)
    intro i inRange
    have fits : i ≠ nBlocks size - 1 → answer + (i + 1) * size < 2 ^ 64 := by
      intro notLast
      have bound := fresh.bound
      have step : (i + 1 + 1) * size ≤ nBlocks size * size :=
        Nat.mul_le_mul_right size (by omega)
      rw [Nat.add_mul (i + 1), Nat.one_mul] at step
      simp only at bound
      omega
    rw [linkBlocks, links i inRange fits]
    by_cases isLast : i + 1 = nBlocks size
    · rw [if_neg (by omega), if_pos isLast]
    · rw [if_pos (by omega), if_neg isLast]
  constructor
  · intro bin
    rw [startsOf_carved]
    by_cases same : size = bin
    · subst same
      rw [Function.update_self, if_pos rfl]
      obtain ⟨count, isCount⟩ := Nat.exists_eq_add_of_lt positive
      rw [isCount, run_succ, List.cons_append, List.headD_cons]
    · rw [Function.update_of_ne (Ne.symm same), if_neg same, inv.chained.head]
  · intro bin
    rw [startsOf_carved]
    split
    · next same =>
        rw [← same, noBlocks, List.append_nil]
        exact linked
    · exact kept.linked bin

theorem Inv.newBlock (inv : Inv sizeofT fa live free chunks) (word : 8 ≤ size)
    (small : size ≤ 256) (empty : fa.firstFrees size = 0)
    (fresh : Fresh fa ⟨answer, largeBlockSize⟩) :
    Inv sizeofT
      ⟨Function.update fa.firstFrees size answer, linkBlocks answer size fa.memory,
        ⟨answer, largeBlockSize⟩ :: fa.reserved⟩
      live (carved size answer free) ((size, answer) :: chunks) := by
  have kept := inv.reserve fresh
  have newPieces : (carved size answer free).map freeExtent =
      (run answer (nBlocks size) size).map (fun block => (⟨block, size⟩ : Extent)) ++
        free.map freeExtent := by
    rw [carved, List.map_append, List.map_map]
    rfl
  have perm : (pieces sizeofT live (carved size answer free)).Perm
      ((run answer (nBlocks size) size).map (fun block => (⟨block, size⟩ : Extent)) ++
        pieces sizeofT live free) := by
    rw [pieces, newPieces]
    exact List.perm_append_comm_assoc _ _ _
  have insideNew : ∀ piece ∈ (run answer (nBlocks size) size).map
      (fun block => (⟨block, size⟩ : Extent)), piece.Inside ⟨answer, largeBlockSize⟩ := by
    intro piece member
    obtain ⟨block, isPiece, rfl⟩ := List.mem_map.mp member
    exact carved_piece_inside isPiece
  exact {
    chained := chained_newBlock inv word small empty fresh
    regionsApart := kept.regionsApart
    region := kept.region
    apart := by
      refine (Extent.pairwise_perm perm).mpr (List.pairwise_append.mpr
        ⟨carved_pieces_apart size answer, inv.apart, ?_⟩)
      intro piece isNew other isOld
      exact (inv.fresh_apart fresh isOld).inside (insideNew piece isNew)
    inside := by
      intro piece member nonempty
      rcases List.mem_append.mp (perm.mem_iff.mp member) with isNew | isOld
      · exact ⟨_, List.mem_cons_self, insideNew piece isNew⟩
      · exact kept.inside piece isOld nonempty
    liveOk := fun block member => (kept.liveOk block member).imp id fun ok =>
      { ok with pooled := fun small => (ok.pooled small).mono _ }
    freeOk := by
      intro block member
      rcases List.mem_append.mp member with isNew | isOld
      · obtain ⟨start, isPiece, rfl⟩ := List.mem_map.mp isNew
        exact ⟨rfl, word, small, _, List.mem_cons_self, rfl, isPiece⟩
      · have ok := inv.freeOk block isOld
        exact { ok with pooled := ok.pooled.mono _ }
    counts := by
      intro bin
      have before := inv.counts bin
      rw [countP_carved, List.countP_cons]
      by_cases same : size = bin
      · simp only [same, if_true, decide_true, Nat.add_mul, Nat.one_mul]
        omega
      · simp only [same, if_false, decide_false, Nat.zero_add, before]
        rfl }

end NewBlock

/-! ## Deallocation -/

section Deallocate

variable {sizeofT : Nat} {fa : FixedAllocator} {live : List Block}
  {free : List (FreeBlock Nat)} {chunks : List (Nat × Nat)} {index : Nat} {block : Block}

theorem eraseIdx_perm (found : live[index]? = some block) :
    live.Perm (block :: live.eraseIdx index) := by
  obtain ⟨inRange, isBlock⟩ := List.getElem?_eq_some_iff.mp found
  exact isBlock ▸ (List.getElem_cons_eraseIdx_perm inRange).symm

theorem erase_pieces (sizeofT : Nat) (free : List (FreeBlock Nat))
    (found : live[index]? = some block) :
    (pieces sizeofT live free).Perm
      (block.whole sizeofT :: pieces sizeofT (live.eraseIdx index) free) :=
  ((eraseIdx_perm found).map (Block.whole sizeofT)).append_right _

theorem Inv.liveOk_erase (inv : Inv sizeofT fa live free chunks)
    (found : live[index]? = some block) {other : Block} (member : other ∈ live.eraseIdx index) :
    other.IsNull ∨ BlockOk sizeofT fa chunks other :=
  inv.liveOk other ((eraseIdx_perm found).mem_iff.mpr (List.mem_cons_of_mem _ member))

/-- A pooled block goes back to its bin. -/
theorem Inv.push (inv : Inv sizeofT fa live free chunks)
    (found : live[index]? = some block) (ok : BlockOk sizeofT fa chunks block)
    (small : block.count * sizeofT ≤ 256) :
    Inv sizeofT
      { fa with
        memory := storePointer fa.memory block.start (fa.firstFrees (block.count * sizeofT))
        firstFrees :=
          Function.update fa.firstFrees (block.count * sizeofT) block.start }
      (live.eraseIdx index)
      (⟨block.count * sizeofT, block.start, block.count * sizeofT⟩ :: free) chunks := by
  have isLive : block ∈ live := List.mem_of_getElem? found
  have perm := erase_pieces sizeofT free found
  have back : (pieces sizeofT live free).Perm
      (pieces sizeofT (live.eraseIdx index)
        (⟨block.count * sizeofT, block.start, block.count * sizeofT⟩ :: free)) :=
    perm.trans List.perm_middle.symm
  exact {
    chained := by
      refine @Chained.push Nat _ _ _ _ inv.chained
        ⟨block.count * sizeofT, block.start, block.count * sizeofT⟩ ok.nonzero
        (fun other isFree => inv.free_start_lt isFree) ?_
      intro other isFree
      have word := ok.word
      have large := (inv.freeOk other isFree).large
      have apart := inv.free_apart isLive isFree
      simp only [Extent.Apart, Apart, Block.whole, freeExtent] at *
      omega
    regionsApart := inv.regionsApart
    region := inv.region
    apart := (Extent.pairwise_perm back).mp inv.apart
    inside := fun piece member => inv.inside piece (back.mem_iff.mpr member)
    liveOk := fun other member =>
      (inv.liveOk_erase found member).imp id fun ok => ok.congr fun _ => id
    freeOk := by
      intro other member
      rcases List.mem_cons.mp member with isNew | member
      · exact isNew ▸ ⟨rfl, ok.word, small, ok.pooled small⟩
      · exact inv.freeOk other member
    counts := by
      intro size
      have before := inv.counts size
      rw [(eraseIdx_perm found).countP_eq, List.countP_cons, ok.source, route_pool small]
        at before
      rw [List.countP_cons, ← before]
      by_cases same : block.count * sizeofT = size
      · simp only [same, decide_true, if_true]
        omega
      · have other : ¬ ((block.count * sizeofT : Nat) : Int) = size := by omega
        simp only [same, decide_false, Option.some.injEq, Source.bin.injEq, other]
        omega }

/-- A block of the heap goes back to the heap. -/
theorem Inv.release (inv : Inv sizeofT fa live free chunks)
    (found : live[index]? = some block) (ok : BlockOk sizeofT fa chunks block)
    (large : 256 < block.count * sizeofT) {next : FixedAllocator}
    (result : Winnie2.free fa block.start = some next) :
    Inv sizeofT next (live.eraseIdx index) free chunks := by
  have isRegion := ok.fromHeap large
  have perm := erase_pieces sizeofT free found
  have apart := List.pairwise_cons.mp ((Extent.pairwise_perm perm).mp inv.apart)
  -- the regions other than the block's start elsewhere
  have kept : ∀ region ∈ fa.reserved, region ≠ block.whole sizeofT →
      region ∈ fa.reserved.eraseP fun region => region.start = block.start := by
    intro region member different
    apply (List.mem_eraseP_of_neg _).mpr member
    have : Std.Symm Extent.Apart := ⟨fun _ _ => Extent.Apart.symm⟩
    have isApart := inv.regionsApart.forall member isRegion different
    have positive := (inv.region region member).2.1
    simp only [Extent.Apart, Apart, Block.whole] at isApart
    simp only [decide_eq_true_eq]
    omega
  unfold Winnie2.free at result
  rw [if_neg ok.nonzero] at result
  split at result
  · cases result
    exact {
      chained := inv.chained
      regionsApart := inv.regionsApart.sublist List.eraseP_sublist
      region := fun region member => inv.region region (List.mem_of_mem_eraseP member)
      apart := apart.2
      inside := by
        intro piece member nonempty
        obtain ⟨region, isOther, inside⟩ :=
          inv.inside piece (perm.mem_iff.mpr (List.mem_cons_of_mem _ member)) nonempty
        refine ⟨region, kept region isOther ?_, inside⟩
        intro isBlock
        have isApart := apart.1 piece member
        subst isBlock
        simp only [Extent.Apart, Apart, Extent.Inside, Block.whole] at isApart inside
        omega
      liveOk := by
        intro other member
        rcases inv.liveOk_erase found member with isNull | otherOk
        · exact .inl isNull
        · refine .inr { otherOk with fromHeap := fun otherLarge => ?_ }
          apply kept _ (otherOk.fromHeap otherLarge)
          have isApart := apart.1 (other.whole sizeofT)
            (List.mem_append_left _ (List.mem_map_of_mem member))
          exact (isApart.ne (by simp only [Block.whole]; omega)).symm
      freeOk := inv.freeOk
      counts := by
        intro size
        have before := inv.counts size
        rw [(eraseIdx_perm found).countP_eq, List.countP_cons_of_neg] at before
        · exact before
        · rw [ok.source, route_heap large]
          simp }
  · cases result

end Deallocate

/-! ## Whole steps -/

structure State.Inv (sizeofT : Nat) (state : State) : Prop where
  blocks : Winnie2.Inv sizeofT state.fa state.live state.free state.chunks
  returned : ∀ pair ∈ state.returned, pair.1 = some pair.2

theorem toInt_count {sizeofT count : Nat} (int : count * sizeofT < 2 ^ 31)
    (positive : 0 < sizeofT) : toInt count = count :=
  toInt_of_lt (Nat.lt_of_le_of_lt (Nat.le_mul_of_pos_right count positive) int)

/-- The element count goes where the number of bytes went exactly for elements of one
byte and for more than 256 elements. -/
theorem route_count_iff {sizeofT count : Nat} (positive : 0 < sizeofT) (nonzero : count ≠ 0) :
    route count = route (count * sizeofT : Nat) ↔ sizeofT = 1 ∨ 256 < count := by
  have more : count ≤ count * sizeofT := Nat.le_mul_of_pos_right count positive
  by_cases large : 256 < count
  · rw [route_heap large, route_heap (Nat.lt_of_lt_of_le large more)]
    exact iff_of_true rfl (.inr large)
  · rw [route_pool (Nat.le_of_not_lt large)]
    by_cases bytesLarge : 256 < count * sizeofT
    · rw [route_heap bytesLarge]
      refine iff_of_false nofun ?_
      rintro (single | isLarge)
      · rw [single, Nat.mul_one] at bytesLarge
        exact large bytesLarge
      · exact large isLarge
    · rw [route_pool (Nat.le_of_not_lt bytesLarge), Source.bin.injEq]
      constructor
      · intro equal
        have same : count * 1 = count * sizeofT := by omega
        exact .inl (Nat.eq_of_mul_eq_mul_left (Nat.pos_of_ne_zero nonzero) same).symm
      · rintro (single | isLarge)
        · rw [single, Nat.mul_one]
        · exact absurd isLarge large

end MallocSurvey.Winnie2
