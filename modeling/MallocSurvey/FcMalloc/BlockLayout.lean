import MallocSurvey.FcMalloc.ThreadAllocator

/-! # The blocks of the pages -/

namespace MallocSurvey.FcMalloc.Malloc2

open Library

variable {header : Nat → BlockHeader} {pages : List Extent} {blocks : List Nat} {c : Nat}

/-- A block with its header. -/
def extentOf (header : Nat → BlockHeader) (c : Nat) : Extent :=
  ⟨c - sizeofHeader, (header (c - sizeofHeader)).calcSize⟩

structure BlockOk (header : Nat → BlockHeader) (pages : List Extent) (c : Nat) : Prop where
  above : sizeofHeader < c
  sized : sizeofHeader ≤ (header (c - sizeofHeader)).calcSize
  bounded : (header (c - sizeofHeader)).next ≤ pageSize
  inside : ∃ page ∈ pages, (extentOf header c).Inside page

/-- Blocks that do not overlap. -/
structure Layout (header : Nat → BlockHeader) (pages : List Extent) (blocks : List Nat) :
    Prop where
  block : ∀ c ∈ blocks, BlockOk header pages c
  apart : (blocks.map (extentOf header)).Pairwise Extent.Apart

theorem BlockOk.ne_zero (ok : BlockOk header pages c) : c ≠ 0 := by
  have above := ok.above
  omega

theorem BlockOk.calcSize_bounds (ok : BlockOk header pages c) :
    0 < (header (c - sizeofHeader)).calcSize ∧
      (header (c - sizeofHeader)).calcSize ≤ pageSize := by
  have sized := ok.sized
  have bounded := ok.bounded
  unfold sizeofHeader BlockHeader.calcSize at *
  omega

/-- Every block has a bin. -/
theorem BlockOk.binNum_lt (ok : BlockOk header pages c) :
    getBinNum (header (c - sizeofHeader)).calcSize < binCount := by
  obtain ⟨positive, bounded⟩ := ok.calcSize_bounds
  have below : (header (c - sizeofHeader)).calcSize < 2 ^ 23 :=
    Nat.lt_of_le_of_lt bounded (by decide)
  have log := (Nat.log2_lt (Nat.ne_of_gt positive)).mpr below
  unfold getBinNum binCount
  omega

namespace Layout

theorem perm {others : List Nat} (layout : Layout header pages blocks)
    (perm : blocks.Perm others) : Layout header pages others :=
  ⟨fun c member => layout.block c (perm.mem_iff.mpr member),
    (Extent.pairwise_perm (perm.map _)).mp layout.apart⟩

theorem nodup (layout : Layout header pages blocks) : blocks.Nodup := by
  refine (List.pairwise_map.mp layout.apart).imp_of_mem ?_
  rintro left right leftMember _ apart rfl
  exact apart.ne (layout.block left leftMember).calcSize_bounds.1 rfl

/-- Other headers are written. -/
theorem congr {changed : Nat → BlockHeader} (layout : Layout header pages blocks)
    (same : ∀ c ∈ blocks, changed (c - sizeofHeader) = header (c - sizeofHeader)) :
    Layout changed pages blocks where
  block := by
    intro c member
    obtain ⟨above, sized, bounded, inside⟩ := layout.block c member
    have sameExtent : extentOf changed c = extentOf header c := by
      unfold extentOf
      rw [same c member]
    refine ⟨above, ?_, ?_, ?_⟩
    · rwa [same c member]
    · rwa [same c member]
    · rwa [sameExtent]
  apart := by
    have sameExtents : blocks.map (extentOf changed) = blocks.map (extentOf header) := by
      apply List.map_congr_left
      intro c member
      unfold extentOf
      rw [same c member]
    rw [sameExtents]
    exact layout.apart

/-- A header that lies in a block is no header of another one. -/
theorem header_ne (layout : Layout header pages (c :: blocks)) {place other : Nat}
    (member : other ∈ blocks) (atLeast : c - sizeofHeader ≤ place)
    (below : place < c - sizeofHeader + (header (c - sizeofHeader)).calcSize) :
    other - sizeofHeader ≠ place := by
  have between := (List.pairwise_cons.mp layout.apart).1 _ (List.mem_map_of_mem member)
  have positive := (layout.block other (List.mem_cons_of_mem _ member)).calcSize_bounds.1
  unfold extentOf Extent.Apart Apart at between
  dsimp only at between
  omega

/-- A page of the system is a block. -/
theorem newPage (layout : Layout header pages blocks) {answer : Nat} (nonzero : answer ≠ 0)
    (apart : ∀ page ∈ pages, Extent.Apart ⟨answer, pageSize⟩ page) :
    Layout (Function.update header answer ⟨0, 0, pageSize, 0⟩) (⟨answer, pageSize⟩ :: pages)
      ((answer + sizeofHeader) :: blocks) := by
  have elsewhere : ∀ other ∈ blocks, Extent.Apart ⟨answer, pageSize⟩ (extentOf header other) := by
    intro other member
    obtain ⟨page, isPage, inside⟩ := (layout.block other member).inside
    exact ((apart page isPage).symm.inside inside).symm
  have kept : ∀ other ∈ blocks, Function.update header answer ⟨0, 0, pageSize, 0⟩
      (other - sizeofHeader) = header (other - sizeofHeader) := by
    intro other member
    have between := elsewhere other member
    have positive := (layout.block other member).calcSize_bounds.1
    apply Function.update_of_ne
    unfold extentOf Extent.Apart Apart pageSize at between
    dsimp only at between
    omega
  have moved := layout.congr kept
  have isHeader : answer + sizeofHeader - sizeofHeader = answer := Nat.add_sub_cancel ..
  have isPage : extentOf (Function.update header answer ⟨0, 0, pageSize, 0⟩)
      (answer + sizeofHeader) = ⟨answer, pageSize⟩ := by
    unfold extentOf
    rw [isHeader, Function.update_self]
    rfl
  constructor
  · intro other member
    rcases List.mem_cons.mp member with rfl | member
    · refine ⟨by omega, ?_, ?_, _, List.mem_cons_self, ?_⟩
      · rw [isHeader, Function.update_self]
        decide
      · rw [isHeader, Function.update_self]
      · rw [isPage]
        exact ⟨Nat.le_refl _, Nat.le_refl _⟩
    · obtain ⟨above, sized, bounded, page, isOld, inside⟩ := moved.block other member
      exact ⟨above, sized, bounded, page, List.mem_cons_of_mem _ isOld, inside⟩
  · rw [List.map_cons, isPage]
    refine List.pairwise_cons.mpr ⟨?_, moved.apart⟩
    intro extent member
    obtain ⟨other, isBlock, rfl⟩ := List.mem_map.mp member
    have between := elsewhere other isBlock
    unfold extentOf at between ⊢
    rwa [kept other isBlock]

/-- A block is cut in two. -/
theorem cut (layout : Layout header pages (c :: blocks)) {s : Nat} {changed : Nat → BlockHeader}
    (fits : sizeofHeader + s + sizeofHeader ≤ (header (c - sizeofHeader)).calcSize)
    (isFirst : changed (c - sizeofHeader) = { header (c - sizeofHeader) with
      next := (header (c - sizeofHeader)).pagePos + sizeofHeader + s })
    (isSecond : (changed (c + s)).pagePos =
        (header (c - sizeofHeader)).pagePos + sizeofHeader + s ∧
      (changed (c + s)).next = (header (c - sizeofHeader)).next)
    (others : ∀ place, place ≠ c - sizeofHeader → place ≠ c + s → changed place = header place) :
    Layout changed pages ((c + s + sizeofHeader) :: c :: blocks) := by
  have width : sizeofHeader = 16 := rfl
  obtain ⟨above, sized, bounded, page, isPage, inside⟩ := layout.block c List.mem_cons_self
  have isHeader : c + s + sizeofHeader - sizeofHeader = c + s := Nat.add_sub_cancel ..
  have firstSize : (changed (c - sizeofHeader)).calcSize = sizeofHeader + s := by
    rw [isFirst]
    unfold BlockHeader.calcSize
    dsimp only
    omega
  have secondSize : (changed (c + s)).calcSize =
      (header (c - sizeofHeader)).calcSize - (sizeofHeader + s) := by
    unfold BlockHeader.calcSize
    rw [isSecond.1, isSecond.2]
    omega
  have kept : ∀ other ∈ blocks,
      changed (other - sizeofHeader) = header (other - sizeofHeader) := by
    intro other member
    apply others
    · exact layout.header_ne member (Nat.le_refl _) (by omega)
    · exact layout.header_ne member (by omega) (by omega)
  have rest : Layout header pages blocks :=
    ⟨fun other member => layout.block other (List.mem_cons_of_mem _ member),
      (List.pairwise_cons.mp layout.apart).2⟩
  have moved := rest.congr kept
  have firstExtent : extentOf changed c = ⟨c - sizeofHeader, sizeofHeader + s⟩ := by
    unfold extentOf
    rw [firstSize]
  have secondExtent : extentOf changed (c + s + sizeofHeader) =
      ⟨c - sizeofHeader + (sizeofHeader + s),
        (header (c - sizeofHeader)).calcSize - (sizeofHeader + s)⟩ := by
    unfold extentOf
    rw [isHeader, secondSize]
    congr 1
    omega
  have whole : (⟨c - sizeofHeader, sizeofHeader + s +
      ((header (c - sizeofHeader)).calcSize - (sizeofHeader + s))⟩ : Extent) =
        extentOf header c := by
    unfold extentOf
    congr 1
    omega
  unfold extentOf Extent.Inside at inside
  dsimp only at inside
  constructor
  · intro other member
    rcases List.mem_cons.mp member with rfl | member
    · refine ⟨by omega, ?_, ?_, page, isPage, ?_⟩
      · rw [isHeader, secondSize]
        omega
      · rw [isHeader, isSecond.2]
        exact bounded
      · rw [secondExtent]
        unfold Extent.Inside
        dsimp only
        omega
    rcases List.mem_cons.mp member with rfl | member
    · refine ⟨above, ?_, ?_, page, isPage, ?_⟩
      · rw [firstSize]
        exact Nat.le_add_right _ _
      · rw [isFirst]
        unfold BlockHeader.calcSize at fits
        dsimp only
        omega
      · rw [firstExtent]
        unfold Extent.Inside
        dsimp only
        omega
    · exact moved.block other member
  · have pieces := layout.apart
    rw [List.map_cons, ← whole] at pieces
    have split := Extent.pairwise_split pieces
    have sameExtents : blocks.map (extentOf changed) = blocks.map (extentOf header) := by
      apply List.map_congr_left
      intro other member
      unfold extentOf
      rw [kept other member]
    rw [List.map_cons, List.map_cons, firstExtent, secondExtent, sameExtents]
    exact (Extent.pairwise_perm (.swap ..)).mp split

end Layout

end MallocSurvey.FcMalloc.Malloc2
