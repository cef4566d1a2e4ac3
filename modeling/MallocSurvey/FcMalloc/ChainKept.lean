import MallocSurvey.FcMalloc.BlockHeader

/-! # What the operations do to the chain

A merge tells the block after it its new size. A split tells nobody, so that it keeps the
chain only where no block comes after. -/

namespace MallocSurvey.FcMalloc.Malloc3

open Library

variable {page page' next : Page} {block s size nextSize : Nat} {sizes first second : List Nat}
  {event : Event}

@[simp] theorem header_setHeader_self (header : BlockHeader) :
    (page.setHeader block header).header block = header :=
  Function.update_self ..

theorem header_setHeader_of_ne {other : Nat} {header : BlockHeader} (apart : other ≠ block) :
    (page.setHeader block header).header other = page.header other :=
  Function.update_of_ne apart ..

theorem header_setPrevOf (value pointer : Option Nat) :
    (page.setPrevOf value pointer).header = page.header ∧
      (page.setPrevOf value pointer).limit = page.limit := by
  cases pointer <;> exact ⟨rfl, rfl⟩

theorem header_setNextOf (value pointer : Option Nat) :
    (page.setNextOf value pointer).header = page.header ∧
      (page.setNextOf value pointer).limit = page.limit := by
  cases pointer <;> exact ⟨rfl, rfl⟩

theorem header_unlink (nxt : Nat) : (page.unlink nxt).header = page.header :=
  (header_setNextOf ..).1.trans (header_setPrevOf ..).1

theorem limit_unlink (nxt : Nat) : (page.unlink nxt).limit = page.limit :=
  (header_setNextOf ..).2.trans (header_setPrevOf ..).2

/-- The nodes are not in the headers. -/
theorem Laid.unlink (laid : Laid page sizes) (nxt : Nat) : Laid (page.unlink nxt) sizes := by
  apply laid.of_sizes (limit_unlink nxt)
  · exact fun block _ => by rw [header_unlink]
  · exact fun block _ => by rw [header_unlink]

/-- Rows of other blocks than the changed ones stay. -/
theorem row_kept {start before : Nat} {closed : Bool}
    (row : Row sizeofHeader (Told page) closed start before sizes)
    (same : ∀ block, start ≤ block → block + sizeofHeader ≤ start + span sizeofHeader sizes →
      page'.header block = page.header block) :
    Row sizeofHeader (Told page') closed start before sizes := by
  refine row.congr fun block member _ _ _ told => told.of_header ?_
  have inside := starts_inside member
  exact same block inside.1 inside.2

/-! ## Splitting -/

theorem header_cut_of_lt {other : Nat} (isBefore : other < block) :
    (page.cut block s).header other = page.header other := by
  unfold Page.cut
  rw [header_setHeader_of_ne isBefore.ne, header_setHeader_of_ne (by omega)]

theorem row_cut (place : block = page.limit + span sizeofHeader first)
    (front : Row sizeofHeader (Told page) false page.limit 0 first) :
    Row sizeofHeader (Told (page.cut block s)) false page.limit 0 first := by
  apply row_kept front
  intro other _ high
  apply header_cut_of_lt
  simp only [sizeofHeader] at *
  omega

/-- The last block is split. -/
theorem Laid.cut (laid : Laid page (first ++ [size]))
    (place : block = page.limit + span sizeofHeader first) (least : 32 ≤ s)
    (room : s + 40 ≤ size) :
    Laid (page.cut block s) (first ++ [s, size - s - sizeofHeader]) := by
  obtain ⟨front, told, _⟩ := Row.at_iff.mp laid.row
  rw [← place] at told
  have small := laid.size_lt
  have isTail : (page.header block).size = -(size : Int) := told.size_eq
  have small_s : field24 s = s := field24_of_lt (by omega) (by omega)
  have negative : (page.header block).size < 0 := by omega
  have nSize : field24 (-((page.size block : Int) - s - sizeofHeader)) =
      -((size - s - sizeofHeader : Nat) : Int) := by
    have same : (page.size block : Int) - s - sizeofHeader = (size - s - sizeofHeader : Nat) := by
      rw [told.size_of]
      simp only [sizeofHeader]
      omega
    rw [same]
    exact field24_of_lt (by omega) (by omega)
  have atBlock : (page.cut block s).header block = { page.header block with size := s } := by
    simp [Page.cut, small_s]
  have apart : block + sizeofHeader + s ≠ block := by
    simp only [sizeofHeader]
    omega
  have atN : (page.cut block s).header (block + sizeofHeader + s) =
      { page.header (block + sizeofHeader + s) with
        prevSize := s
        size := -((size - s - sizeofHeader : Nat) : Int) } := by
    simp only [Page.cut, header_setHeader_of_ne apart, header_setHeader_self, negative, if_true,
      nSize]
  refine ⟨by simp, Row.at_iff.mpr ⟨?_, ?_, ?_, trivial⟩, ?_⟩
  · exact row_cut place front
  · change Told _ (page.limit + span sizeofHeader first) _ _ _
    rw [← place]
    refine ⟨by omega, ?_, ?_⟩
    · rw [atBlock]
      exact told.prevSize_eq
    · rw [atBlock]
      rfl
  · change Told _ (page.limit + span sizeofHeader first + (sizeofHeader + s)) _ _ _
    rw [← place, ← Nat.add_assoc]
    refine ⟨?_, ?_, ?_⟩
    · simp only [sizeofHeader]
      omega
    · rw [atN]
    · rw [atN]
      rfl
  · have whole := laid.span_eq
    simp only [span_append, span_cons, span_nil] at whole ⊢
    simp only [sizeofHeader] at *
    omega

theorem splitAfter_cases (isPage : page.assertPage block = some ()) :
    (s < 32 ∧ page.splitAfter block s = none) ∨
      (page.size block < s + 40 ∧ page.splitAfter block s = some (none, page)) ∨
      (32 ≤ s ∧ s + 40 ≤ page.size block ∧
        page.splitAfter block s = do
          let n := block + sizeofHeader + s
          let after := page.cut block s
          assert (s ≤ after.size block)
          after.assertPage n
          after.assertPage block
          return (some n, after)) := by
  by_cases least : 32 ≤ s
  · have isLeast : assert (32 ≤ s) = some () := if_pos least
    by_cases small : (page.size block : Int) - 8 - 32 < s
    · refine .inr (.inl ⟨by omega, ?_⟩)
      simp only [Page.splitAfter, isLeast, isPage, Option.bind_eq_bind, Option.bind_some]
      rw [if_pos small]
      rfl
    · refine .inr (.inr ⟨least, by omega, ?_⟩)
      simp only [Page.splitAfter, isLeast, isPage, Option.bind_eq_bind, Option.bind_some]
      rw [if_neg small]
  · have notLeast : assert (32 ≤ s) = none := if_neg least
    refine .inl ⟨by omega, ?_⟩
    simp only [Page.splitAfter, notLeast, Option.bind_eq_bind, Option.bind_none]

/-- A split of the last block or of a small one. -/
theorem Laid.splitAfter (laid : Laid page sizes) (member : block ∈ page.blocks)
    (fits : page.size block < s + 40 ∨ page.next block = none) :
    (s < 32 ∧ page.splitAfter block s = none) ∨
      ∃ pointer next sizes, page.splitAfter block s = some (pointer, next) ∧
        Laid next sizes := by
  rcases splitAfter_cases (laid.assertPage_eq member) with refused | small | ⟨least, room, call⟩
  · exact .inl refused
  · exact .inr ⟨none, page, sizes, small.2, laid⟩
  · obtain ⟨first, size, second, split, place, _, told, _⟩ := laid.at_block member
    rw [told.size_of] at room fits
    cases second with
    | cons other second =>
        exfalso
        rw [told.next_of_inner] at fits
        rcases fits with small | isLast
        · omega
        · cases isLast
    | nil =>
        subst split
        have cut := laid.cut place least room
        have first_mem := cut.mem_blocks
        have cut' : Laid (page.cut block s) ((first ++ [s]) ++ [size - s - sizeofHeader]) := by
          rw [List.append_assoc]
          exact cut
        have second_mem := cut'.mem_blocks
        rw [span_append, span_cons, span_nil, Nat.add_zero] at second_mem
        change page.limit + span sizeofHeader first ∈ _ at first_mem
        change page.limit + (span sizeofHeader first + (sizeofHeader + s)) ∈ _ at second_mem
        rw [← place] at first_mem
        rw [← Nat.add_assoc, ← place, ← Nat.add_assoc] at second_mem
        have sizeIs : assert (s ≤ (page.cut block s).size block) = some () := by
          obtain ⟨_, newTold, _⟩ := Row.at_iff.mp cut.row
          change Told _ (page.limit + span sizeofHeader first) _ _ _ at newTold
          rw [← place] at newTold
          exact if_pos (Nat.le_of_eq newTold.size_of.symm)
        rw [call]
        simp only [sizeIs, cut.assertPage_eq first_mem, cut.assertPage_eq second_mem,
          Option.bind_eq_bind, Option.bind_some]
        exact .inr ⟨_, _, _, rfl, cut⟩

/-- The blocks of a page up to one of them. -/
theorem walk_append {start before : Nat}
    (row : Row sizeofHeader (Told page) false start before first) (steps : Nat) :
    page.walk (first.length + steps) start =
      starts sizeofHeader start first ++ page.walk steps (start + span sizeofHeader first) := by
  induction first generalizing start before with
  | nil => simp [starts]
  | cons size first induction =>
      have inner : page.next start = some (start + (sizeofHeader + size)) :=
        row.1.next_of_inner
      rw [List.length_cons, Nat.add_right_comm, Page.walk, inner]
      dsimp only
      rw [induction row.2, span_cons, Nat.add_assoc start]
      rfl

/-- After the split of another block its neighbour still tells the old size. -/
theorem Laid.cut_broken (laid : Laid page sizes) (member : block ∈ page.blocks)
    (least : 32 ≤ s) (room : s + 40 ≤ page.size block) (inner : page.next block ≠ none) :
    ¬ Consistent (page.cut block s) := by
  obtain ⟨first, size, second, split, place, front, told, rest⟩ := laid.at_block member
  cases second with
  | nil => exact absurd told.next_of_last inner
  | cons third second =>
      intro consistent
      rw [told.size_of] at room
      have small : size < 2 ^ 22 := by
        rw [split] at laid
        exact laid.size_lt
      have positive : ¬ (page.header block).size < 0 := by
        have isInner : (page.header block).size = size := told.size_eq
        omega
      have apart : block + sizeofHeader + s ≠ block := by
        simp only [sizeofHeader]
        omega
      obtain ⟨n, isN⟩ : ∃ n, n = block + sizeofHeader + s := ⟨_, rfl⟩
      have blockNext : (page.cut block s).next block = some n := by
        have small_s : field24 s = s := field24_of_lt (by omega) (by omega)
        unfold Page.next
        simp only [Page.cut, header_setHeader_self, small_s]
        rw [if_pos (by omega), Int.toNat_natCast, isN]
      have nSize : ((page.cut block s).header n).size = (size - s - sizeofHeader : Nat) := by
        have same : (page.size block : Int) - s - sizeofHeader =
            (size - s - sizeofHeader : Nat) := by
          rw [told.size_of]
          simp only [sizeofHeader]
          omega
        simp only [Page.cut, isN, header_setHeader_of_ne apart, header_setHeader_self,
          if_neg positive, same]
        exact field24_of_lt (by omega) (by omega)
      have n_mem : n ∈ (page.cut block s).blocks := by
        have enough := laid.length_le
        rw [split, List.length_append, List.length_cons, List.length_cons] at enough
        obtain ⟨steps, isSteps⟩ := Nat.exists_eq_add_of_le enough
        have onward := walk_append (row_cut (s := s) place front) (steps + second.length + 2)
        change Page.walk (page.cut block s) _ page.limit = _ ++ Page.walk _ _ _ at onward
        have same : first.length + (steps + second.length + 2) = Page.steps := by omega
        rw [same, ← place, Page.walk, blockNext] at onward
        unfold Page.blocks
        change n ∈ Page.walk (page.cut block s) Page.steps page.limit
        rw [onward]
        simp [Page.walk]
      -- the block after it
      have thirdPlace : n + (sizeofHeader + (size - s - sizeofHeader)) =
          block + (sizeofHeader + size) := by
        simp only [sizeofHeader] at *
        omega
      have thirdTold : Told (page.cut block s) (block + (sizeofHeader + size)) size third
          second.isEmpty := by
        apply rest.1.of_header
        simp only [Page.cut]
        rw [header_setHeader_of_ne (by omega), header_setHeader_of_ne]
        simp only [sizeofHeader] at *
        omega
      have nNext : (page.cut block s).next n = some (block + (sizeofHeader + size)) := by
        unfold Page.next
        rw [nSize, if_pos (by simp only [sizeofHeader]; omega), Int.toNat_natCast, Nat.add_assoc,
          thirdPlace]
      have notLast : n + ((page.cut block s).extent n).length ≠
          (page.cut block s).limit + pageSizeMax := by
        have whole := laid.span_eq
        rw [split, span_append, span_cons, span_cons] at whole
        have isLength : ((page.cut block s).extent n).length =
            sizeofHeader + (size - s - sizeofHeader) := by
          unfold Page.extent Page.size
          rw [nSize, Int.natAbs_natCast]
        have sameLimit : (page.cut block s).limit = page.limit := rfl
        rw [isLength, thirdPlace, sameLimit, ← whole, place]
        have positive := thirdTold.size_pos
        omega
      obtain ⟨other, _, isNext, isPrev⟩ := consistent.prev_next n n_mem notLast
      rw [nNext] at isNext
      cases isNext
      rw [thirdTold.prev_of_pos (by omega)] at isPrev
      have same := Option.some.inj isPrev
      omega

/-! ## Merging -/

section Merged

variable {nxt total : Nat}

theorem grown_eq (blockSize : (page.header block).size = size)
    (nextIs : page.size nxt = nextSize) (isTotal : size + sizeofHeader + nextSize = total)
    (small : total < 2 ^ 22) :
    field24 ((page.header block).size + page.size nxt + 8) = total := by
  have same : (page.header block).size + page.size nxt + 8 = (total : Nat) := by
    rw [blockSize, nextIs, ← isTotal]
    simp only [sizeofHeader]
    omega
  rw [same]
  exact field24_of_lt (by omega) (by omega)

/-- With the tail merged, the block is the tail. -/
theorem merged_of_tail
    (grown : field24 ((page.header block).size + page.size nxt + 8) = total)
    (isTail : (page.header nxt).size < 0) (small : total < 2 ^ 22) :
    page.merged block nxt =
      page.setHeader block { page.header block with size := -(total : Int) } := by
  have negated : field24 (-(total : Int)) = -(total : Int) :=
    field24_of_lt (by omega) (by omega)
  have isLast : (page.setHeader block { page.header block with
      size := -(total : Int) }).next block = none := by
    unfold Page.next
    rw [header_setHeader_self]
    exact if_neg (by dsimp only; omega)
  simp only [Page.merged, grown, if_pos isTail, negated]
  rw [isLast]

/-- The block after them is told the new size. -/
theorem merged_of_inner
    (grown : field24 ((page.header block).size + page.size nxt + 8) = total)
    (isInner : ¬ (page.header nxt).size < 0) (positive : 0 < total) :
    page.merged block nxt =
      (page.setHeader block { page.header block with size := total }).setHeader
        (block + (sizeofHeader + total))
        { page.header (block + (sizeofHeader + total)) with prevSize := total } := by
  have apart : block + (sizeofHeader + total) ≠ block := by omega
  have onward : (page.setHeader block { page.header block with
      size := total }).next block = some (block + (sizeofHeader + total)) := by
    unfold Page.next
    rw [header_setHeader_self]
    simp only [Int.toNat_natCast, ← Nat.add_assoc]
    exact if_pos (by omega)
  simp only [Page.merged, grown, if_neg isInner]
  rw [onward]
  simp only [header_setHeader_of_ne apart, Page.size, header_setHeader_self, Int.natAbs_natCast]

theorem limit_merged (block nxt : Nat) : (page.merged block nxt).limit = page.limit := by
  unfold Page.merged
  dsimp only
  split <;> rfl

end Merged

/-- A block takes the memory of the one after it. -/
theorem Laid.merged (laid : Laid page (first ++ size :: nextSize :: second))
    (place : block = page.limit + span sizeofHeader first) :
    Laid (page.merged block (block + (sizeofHeader + size)))
      (first ++ (size + sizeofHeader + nextSize) :: second) := by
  obtain ⟨front, told, nextTold, rest⟩ := Row.at_iff.mp laid.row
  rw [← place] at told nextTold rest
  have nextPos := nextTold.size_pos
  obtain ⟨total, isTotal⟩ : ∃ total, size + sizeofHeader + nextSize = total := ⟨_, rfl⟩
  have whole := laid.span_eq
  rw [span_append, span_cons, span_cons] at whole
  have small : total < 2 ^ 22 := by
    simp only [sizeofHeader, pageSizeMax] at whole isTotal
    omega
  have grown := grown_eq told.size_eq nextTold.size_of isTotal small
  rw [isTotal]
  refine ⟨by simp, Row.at_iff.mpr ?_, ?_⟩
  · cases second with
    | nil =>
        have isTail : (page.header (block + (sizeofHeader + size))).size = -(nextSize : Int) :=
          nextTold.size_eq
        rw [merged_of_tail grown (by omega) small]
        refine ⟨?_, ?_, trivial⟩
        · apply row_kept front
          intro other low high
          change other + sizeofHeader ≤ page.limit + _ at high
          refine header_setHeader_of_ne ?_
          simp only [sizeofHeader] at *
          omega
        · change Told _ (page.limit + span sizeofHeader first) _ _ _
          rw [← place]
          refine ⟨by omega, ?_, ?_⟩
          · rw [header_setHeader_self]
            exact told.prevSize_eq
          · rw [header_setHeader_self]
            rfl
    | cons third second =>
        obtain ⟨thirdTold, rest⟩ := rest
        have isInner : (page.header (block + (sizeofHeader + size))).size = nextSize :=
          nextTold.size_eq
        have onward : block + (sizeofHeader + size) + (sizeofHeader + nextSize) =
            block + (sizeofHeader + total) := by omega
        rw [onward] at thirdTold rest
        rw [merged_of_inner grown (by omega) (by omega)]
        have apart : block ≠ block + (sizeofHeader + total) := by omega
        refine ⟨?_, ?_, ?_, ?_⟩
        · apply row_kept front
          intro other low high
          change other + sizeofHeader ≤ page.limit + _ at high
          simp only [sizeofHeader] at *
          rw [header_setHeader_of_ne (by omega), header_setHeader_of_ne (by omega)]
        · change Told _ (page.limit + span sizeofHeader first) _ _ _
          rw [← place]
          refine ⟨by omega, ?_, ?_⟩
          · rw [header_setHeader_of_ne apart, header_setHeader_self]
            exact told.prevSize_eq
          · rw [header_setHeader_of_ne apart, header_setHeader_self]
            rfl
        · change Told _ (page.limit + span sizeofHeader first + (sizeofHeader + total)) _ _ _
          rw [← place]
          refine ⟨thirdTold.size_pos, ?_, ?_⟩
          · rw [header_setHeader_self]
          · rw [header_setHeader_self]
            exact thirdTold.size_eq
        · change Row _ _ _
            (page.limit + span sizeofHeader first + (sizeofHeader + total) + _) _ _
          rw [← place]
          apply row_kept rest
          intro other low _
          simp only [sizeofHeader] at *
          rw [header_setHeader_of_ne (by omega), header_setHeader_of_ne (by omega)]
  · rw [span_append, span_cons, ← whole]
    omega

end MallocSurvey.FcMalloc.Malloc3
