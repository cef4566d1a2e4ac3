import MallocSurvey.Gjalloc.Sorting

/-! # Handing out a sorted list

A sorted list may have its tag at the last block, and `ba_shift` does not expect one
there. -/

namespace MallocSurvey.Gjalloc

variable {l : Layout} {p first bytes bvLength : Nat} {memory other : Words} {indices : List Nat}
  {tagged : Bool}

/-! ## `bv_ctz` -/

/-- The first bit of the word `c` that is not below `low`. -/
def wordCtz (bvLength : Nat) (v : Nat → Bool) (c low : Nat) : Option Nat :=
  (List.range bvLength).find? fun bit => low ≤ bit && v (c * bvLength + bit)

/-- The loop over the words. -/
def ctzLoop (bvLength : Nat) (v : Nat → Bool) (length : Nat) : Nat → Nat → Nat → Option Nat
  | 0, _, _ => none
  | fuel + 1, c, low =>
      match wordCtz bvLength v c low with
      | some bit => if c * bvLength + bit ≥ length then none else some (c * bvLength + bit)
      | none => if c * bvLength ≥ length then none else ctzLoop bvLength v length fuel (c + 1) 0

def bvCtz (bvLength : Nat) (v : Nat → Bool) (length n : Nat) : Option Nat :=
  ctzLoop bvLength v length (length + 1) (n / bvLength) (n % bvLength)

/-- The positions that `ba_sort_list` passes from `j` on. -/
def ctzBits (bvLength : Nat) (v : Nat → Bool) (length : Nat) : Nat → Nat → List Nat
  | 0, _ => []
  | fuel + 1, j =>
      match bvCtz bvLength v length j with
      | none => []
      | some i => i :: ctzBits bvLength v length fuel (i + 1)

theorem wordCtz_some {v : Nat → Bool} {c low bit : Nat}
    (found : wordCtz bvLength v c low = some bit) :
    low ≤ bit ∧ bit < bvLength ∧ v (c * bvLength + bit) = true ∧
      ∀ k, low ≤ k → k < bit → v (c * bvLength + k) = false := by
  unfold wordCtz at found
  obtain ⟨isBit, inWord, least⟩ := List.find?_range_eq_some.mp found
  rw [Bool.and_eq_true, decide_eq_true_eq] at isBit
  refine ⟨isBit.1, List.mem_range.mp inWord, isBit.2, ?_⟩
  intro k above below
  have notBit := least k below
  simpa [above] using notBit

theorem wordCtz_none {v : Nat → Bool} {c low : Nat}
    (found : wordCtz bvLength v c low = none) :
    ∀ k, low ≤ k → k < bvLength → v (c * bvLength + k) = false := by
  unfold wordCtz at found
  intro k above inWord
  have notBit := List.find?_eq_none.mp found k (List.mem_range.mpr inWord)
  simpa [above] using notBit

/-- The first bit from `n` on and below the length. -/
def FirstBit (v : Nat → Bool) (length n : Nat) : Option Nat → Prop
  | none => ∀ k, n ≤ k → k < length → v k = false
  | some i => n ≤ i ∧ i < length ∧ v i = true ∧ ∀ k, n ≤ k → k < i → v k = false

theorem ctzLoop_spec (positive : 0 < bvLength) (v : Nat → Bool) {length fuel c low : Nat}
    (inWord : low < bvLength) (enough : length < fuel + c) :
    FirstBit v length (c * bvLength + low) (ctzLoop bvLength v length fuel c low) := by
  induction fuel generalizing c low with
  | zero =>
      intro k above below
      have wide := Nat.le_mul_of_pos_right c positive
      omega
  | succ fuel induction =>
      rw [ctzLoop]
      cases found : wordCtz bvLength v c low with
      | some bit =>
          obtain ⟨above, inside, isBit, least⟩ := wordCtz_some found
          have before : ∀ k, c * bvLength + low ≤ k → k < c * bvLength + bit → v k = false := by
            intro k from_low below
            have isBelow := least (k - c * bvLength) (by omega) (by omega)
            rwa [Nat.add_sub_of_le (by omega)] at isBelow
          dsimp only
          by_cases beyond : c * bvLength + bit ≥ length
          · rw [if_pos beyond]
            exact fun k from_low below => before k from_low (by omega)
          · rw [if_neg beyond]
            exact ⟨by omega, by omega, isBit, before⟩
      | none =>
          have inThis := wordCtz_none found
          have next : (c + 1) * bvLength = c * bvLength + bvLength := Nat.succ_mul c bvLength
          dsimp only
          by_cases beyond : c * bvLength ≥ length
          · rw [if_pos beyond]
            intro k from_low below
            omega
          · rw [if_neg beyond]
            have rest := @induction (c + 1) 0 positive (by omega)
            rw [next, Nat.add_zero] at rest
            have skip : ∀ k, c * bvLength + low ≤ k → k < c * bvLength + bvLength → v k = false := by
              intro k from_low below
              have isBelow := inThis (k - c * bvLength) (by omega) (by omega)
              rwa [Nat.add_sub_of_le (by omega)] at isBelow
            cases last : ctzLoop bvLength v length fuel (c + 1) 0 with
            | none =>
                rw [last] at rest
                intro k from_low below
                by_cases here : k < c * bvLength + bvLength
                · exact skip k from_low here
                · exact rest k (by omega) below
            | some i =>
                rw [last] at rest
                obtain ⟨above, inside, isBit, least⟩ := rest
                refine ⟨by omega, inside, isBit, ?_⟩
                intro k from_low below
                by_cases here : k < c * bvLength + bvLength
                · exact skip k from_low here
                · exact least k (by omega) below

theorem bvCtz_spec (positive : 0 < bvLength) (v : Nat → Bool) (length n : Nat) :
    FirstBit v length n (bvCtz bvLength v length n) := by
  have found := @ctzLoop_spec bvLength positive v length (length + 1) (n / bvLength)
    (n % bvLength) (Nat.mod_lt _ positive) (Nat.lt_add_right _ (Nat.lt_succ_self _))
  rwa [Nat.mul_comm, Nat.div_add_mod] at found

/-! ## `ba_shift` -/

/-- `ba_shift` returns the blocks one after another and none after them. What is not free may
be written to at any time. -/
def HandsOut (l : Layout) (p : Nat) : List Nat → PageHeader → Words → Prop
  | [], h, _ => h.first = 0
  | i :: rest, h, memory => ∃ newHeader newMemory,
      baShift l p h memory = some (l.blockN p i, newHeader, newMemory) ∧
        ∀ other : Words,
          (∀ j ∈ rest, ∀ cell < l.blockSize,
            other (l.blockN p j + cell) = newMemory (l.blockN p j + cell)) →
          HandsOut l p rest newHeader other

theorem baShift_link {h : PageHeader} {i : Nat} (isFirst : h.first = l.blockN p i)
    (notTag : memory h.first ≠ baOne) :
    baShift l p h memory =
      some (l.blockN p i, ⟨memory h.first, h.used + 1, h.sorted⟩, memory) := by
  rw [← isFirst]
  exact if_neg notTag

theorem handsOut_untagged (valid : l.Valid) {h : PageHeader}
    (chain : Chain l p memory 0 h.first indices) : HandsOut l p indices h memory := by
  induction indices generalizing h memory with
  | nil => exact chain
  | cons i rest induction =>
      obtain ⟨isFirst, restChain⟩ := chain
      have notTag : memory h.first ≠ baOne := by
        intro isTag
        have ends := (restChain.of_tag isTag).2
        unfold baOne at ends
        omega
      refine ⟨_, _, baShift_link isFirst notTag, ?_⟩
      intro other same
      apply induction
      refine restChain.congr fun j member => ?_
      exact same j member 0 valid.blockSize_pos

/-- All blocks from the first on are free. -/
theorem handsOut_rest (valid : l.Valid) {h : PageHeader} (count t : Nat)
    (isEnd : t + count + 1 = l.blocks) (isFirst : h.first = l.blockN p t)
    (link : memory (l.blockN p t) = if count = 0 then 0 else baOne) :
    HandsOut l p (List.range' t (count + 1)) h memory := by
  induction count generalizing t h memory with
  | zero =>
      apply handsOut_untagged valid
      exact ⟨isFirst, by rw [isFirst, link]; rfl⟩
  | succ count induction =>
      rw [if_neg (Nat.succ_ne_zero count)] at link
      have inside := @Layout.blockN_inside l p valid (t + 1) (by omega)
      have isLast : l.blockN p (t + 1) = l.lastBlock p ↔ count = 0 := by
        rw [Layout.lastBlock_eq valid, Layout.blockN_inj valid]
        omega
      have shifted : baShift l p h memory = some (l.blockN p t,
          ⟨l.blockN p (t + 1), h.used + 1, true⟩,
          Function.update memory (l.blockN p (t + 1)) (if count = 0 then 0 else baOne)) := by
        unfold baShift
        rw [isFirst, if_pos link, Layout.blockN_next]
        simp only [isLast]
        unfold storeNext
        rw [if_pos inside]
        rfl
      rw [List.range'_succ]
      refine ⟨_, _, shifted, ?_⟩
      intro other same
      apply induction (t + 1) (by omega) rfl
      have kept := same (t + 1) (List.mem_range'_1.mpr (by omega)) 0 valid.blockSize_pos
      rw [Nat.add_zero, Function.update_self] at kept
      exact kept

theorem handsOut_tagged (valid : l.Valid) {h : PageHeader} {t : Nat}
    (chain : Chain l p memory baOne h.first (indices ++ [t])) (inside : t + 1 < l.blocks) :
    HandsOut l p (indices ++ List.range' t (l.blocks - t)) h memory := by
  induction indices generalizing h memory with
  | nil =>
      obtain ⟨isFirst, isTag⟩ := chain
      have rest := @handsOut_rest l p memory valid h (l.blocks - t - 1) t (by omega) isFirst (by
        rw [if_neg (by omega), ← isFirst]
        exact isTag)
      rwa [Nat.sub_add_cancel (by omega)] at rest
  | cons i rest induction =>
      obtain ⟨isFirst, restChain⟩ := chain
      have notTag : memory h.first ≠ baOne := by
        intro isTag
        have isEmpty := (restChain.of_tag isTag).1
        exact absurd isEmpty (List.append_ne_nil_of_right_ne_nil _ (List.cons_ne_nil _ _))
      refine ⟨_, _, baShift_link isFirst notTag, ?_⟩
      intro other same
      apply induction
      refine restChain.congr fun j member => ?_
      apply same j _ 0 valid.blockSize_pos
      rcases List.mem_append.mp member with isFront | isLast
      · exact List.mem_append_left _ isFront
      · rw [List.mem_singleton.mp isLast]
        exact List.mem_append_right _ (List.mem_range'_1.mpr (by omega))

/-- A tag at the last block leads out of the page. -/
theorem not_handsOut (valid : l.Valid) {h : PageHeader}
    (chain : Chain l p memory baOne h.first (indices ++ [l.blocks - 1])) :
    ¬ HandsOut l p (indices ++ [l.blocks - 1]) h memory := by
  have blocks := valid.blocks
  induction indices generalizing h memory with
  | nil =>
      rintro ⟨newHeader, newMemory, shifted, _⟩
      obtain ⟨isFirst, isLast⟩ := chain
      have isTag : memory h.first = baOne := isLast
      have outside : ¬ (p + baPageSize ≤ l.blockN p l.blocks ∧
          l.blockN p l.blocks + blockHeaderSize ≤ p + l.pageSize) := by
        rw [Layout.pageEnd valid]
        unfold blockHeaderSize
        omega
      unfold baShift at shifted
      rw [if_pos isTag, isFirst, Layout.blockN_next, Nat.sub_add_cancel blocks] at shifted
      unfold storeNext at shifted
      dsimp only at shifted
      rw [if_neg outside] at shifted
      cases shifted
  | cons i rest induction =>
      rintro ⟨newHeader, newMemory, shifted, hands⟩
      obtain ⟨isFirst, restChain⟩ := chain
      have notTag : memory h.first ≠ baOne := by
        intro isTag
        have isEmpty := (restChain.of_tag isTag).1
        exact absurd isEmpty (List.append_ne_nil_of_right_ne_nil _ (List.cons_ne_nil _ _))
      rw [baShift_link isFirst notTag] at shifted
      cases shifted
      exact induction restChain (hands memory fun _ _ _ _ => rfl)

/-! ## Sorting and handing out -/

/-- The sorted list has the same free blocks in ascending order, and they are handed out one
by one. -/
def SortsForShifts (bvLength : Nat) (l : Layout) (p first used : Nat) (memory : Words)
    (free : Finset Nat) : Prop :=
  ∃ newFirst newMemory sorted newTagged order,
    baSortList bvLength l p first memory = some (newFirst, newMemory) ∧
    FreeList l p newMemory newFirst sorted newTagged ∧ sorted.Pairwise (· < ·) ∧
    freeSet l.blocks sorted newTagged = free ∧
    order.Pairwise (· < ·) ∧ (∀ i, i ∈ order ↔ i ∈ free) ∧
    HandsOut l p order ⟨newFirst, used, true⟩ newMemory

/-- The last block is free only if it is the only one of the page or follows a free one that
is not the first. -/
def LastFits (l : Layout) (free : Finset Nat) : Prop :=
  l.blocks - 1 ∈ free → l.blocks = 1 ∨ 2 < l.blocks ∧ l.blocks - 2 ∈ free

theorem FreeList.sorted_tag {newFirst t : Nat} {newMemory : Words} {front : List Nat}
    (valid : l.Valid) (positive : 0 < bvLength)
    (list : FreeList l p memory first indices tagged)
    (isSort : baSortList bvLength l p first memory = some (newFirst, newMemory))
    (sorted : FreeList l p newMemory newFirst (front ++ [t]) true) :
    t = lengthOf l.blocks (endOf tagged) indices := by
  have nonempty : endOf tagged = baOne → indices ≠ [] := by
    intro isOne
    obtain ⟨others, last, isList, _⟩ := list.tag (endOf_inj isOne)
    simp [isList]
  obtain ⟨otherFirst, otherMemory, isOther, tail, noTail, _⟩ := @baSortList_spec l p first
    (endOf tagged) memory indices bvLength valid list.chain (endOf_le _) nonempty list.nodup
    (fun i member => Nat.lt_succ_of_lt (list.bound i member))
    (fun i member => room_of_lt positive (list.bound i member))
  cases isSort.symm.trans isOther
  by_cases inside : lengthOf l.blocks (endOf tagged) indices < l.blocks
  · have same := (sorted.chain.unique valid (tail inside) (endOf_le _) (Nat.le_refl _)).1
    exact (List.append_inj' same rfl).2 |> List.singleton_inj.mp
  · have same := (sorted.chain.unique valid (noTail inside) (endOf_le _) (Nat.zero_le _)).2
    cases same

theorem sorted_unique {left right : List Nat} (leftSorted : left.Pairwise (· < ·))
    (rightSorted : right.Pairwise (· < ·)) (same : ∀ i, i ∈ left ↔ i ∈ right) : left = right :=
  ((List.perm_ext_iff_of_nodup (leftSorted.imp Nat.ne_of_lt)
    (rightSorted.imp Nat.ne_of_lt)).mpr same).eq_of_pairwise
    (fun _ _ _ _ below above => absurd below (Nat.lt_asymm above)) leftSorted rightSorted

/-- Sorting prepares a list for `ba_shift` exactly if its tag does not go to the last block. -/
theorem baSortList_hands_out_iff (valid : l.Valid) (positive : 0 < bvLength)
    (list : FreeList l p memory first indices tagged) (used : Nat) :
    SortsForShifts bvLength l p first used memory (freeSet l.blocks indices tagged) ↔
      LastFits l (freeSet l.blocks indices tagged) := by
  obtain ⟨free, isFree⟩ : ∃ free, freeSet l.blocks indices tagged = free := ⟨_, rfl⟩
  obtain ⟨newFirst, newMemory, sorted, newTagged, isSort, sortedList, ascending, sameFree,
    tagIff, _⟩ := list.sort valid positive
  obtain ⟨atLeast, atMost, _, _, isStop⟩ := list.lengthOf_spec valid
  have tag := @FreeList.sorted_tag l p first bvLength memory indices tagged newFirst
  rw [isFree] at sameFree tagIff isStop ⊢
  cases newTagged with
  | false =>
      have lastUsed : l.blocks - 1 ∈ free → l.blocks = 1 := by
        intro lastFree
        by_contra more
        have isTagged := tagIff.mpr ⟨lastFree, by have := valid.blocks; omega⟩
        cases isTagged
      refine iff_of_true ?_ fun lastFree => .inl (lastUsed lastFree)
      refine ⟨newFirst, newMemory, sorted, false, sorted, isSort, sortedList, ascending,
        sameFree, ascending, ?_, handsOut_untagged valid sortedList.chain⟩
      intro i
      rw [← sameFree, mem_freeSet_untagged sortedList.bound]
  | true =>
      obtain ⟨front, t, isSorted, below⟩ := sortedList.tag rfl
      subst isSorted
      have isLength := tag valid positive list isSort sortedList
      rw [← isLength] at atLeast atMost isStop
      have inRange := sortedList.bound t (List.mem_append_right _ (List.mem_singleton_self t))
      have member : ∀ i, i ∈ free ↔ i ∈ front ∨ t ≤ i ∧ i < l.blocks := by
        intro i
        rw [← sameFree]
        exact mem_freeSet_snoc sortedList.bound
      by_cases inside : t + 1 < l.blocks
      · refine iff_of_true ?_ ?_
        · refine ⟨newFirst, newMemory, _, true, front ++ List.range' t (l.blocks - t), isSort,
            sortedList, ascending, sameFree, ?_, ?_, handsOut_tagged valid sortedList.chain inside⟩
          · rw [List.pairwise_append]
            refine ⟨(List.pairwise_append.mp ascending).1, List.pairwise_lt_range' .., ?_⟩
            intro i isFront j isRest
            have atLeastTag := (List.mem_range'_1.mp isRest).1
            exact Nat.lt_of_lt_of_le (below i isFront) atLeastTag
          · intro i
            rw [member, List.mem_append, List.mem_range'_1, Nat.add_sub_of_le (by omega)]
        · intro _
          refine .inr ⟨by omega, (member _).mpr (.inr (by omega))⟩
      · have isLast : t = l.blocks - 1 := by omega
        refine iff_of_false ?_ ?_
        · rintro ⟨otherFirst, otherMemory, _, _, order, isOther, _, _, _, orderAscending,
            orderFree, hands⟩
          cases isSort.symm.trans isOther
          have sameOrder : order = front ++ [t] := by
            apply sorted_unique orderAscending ascending
            intro i
            have isTag : t ≤ i ∧ i < l.blocks ↔ i = t := by omega
            rw [orderFree, member, List.mem_append, List.mem_singleton, isTag]
          rw [sameOrder, isLast] at hands
          have chain := sortedList.chain
          rw [isLast] at chain
          exact not_handsOut valid chain hands
        · intro fits
          rcases fits ((member _).mpr (.inr (by omega))) with isOne | ⟨three, beforeFree⟩
          · omega
          · rcases isStop with isFirst | notFree
            · omega
            · exact notFree (by rwa [isLast, Nat.sub_sub])

/-- A page of four blocks. -/
def fourBlocks : Layout := ⟨baPageSize + 3 * blockHeaderSize, blockHeaderSize, 4⟩

theorem fourBlocks_valid : fourBlocks.Valid := ⟨rfl, by decide, by decide⟩

/-- The words of the page at 4096 when the last block and then the `i`-th one are free. -/
def lastAnd (i : Nat) : Words :=
  Function.update (fun _ => 0) (fourBlocks.blockN 4096 3) (fourBlocks.blockN 4096 i)

theorem lastAnd_list {i : Nat} (before : i < 3) :
    FreeList fourBlocks 4096 (lastAnd i) (fourBlocks.blockN 4096 3) [3, i] false where
  chain := by
    refine ⟨rfl, Function.update_self .., ?_⟩
    change lastAnd i (lastAnd i (fourBlocks.blockN 4096 3)) = 0
    unfold lastAnd
    rw [Function.update_self, Function.update_of_ne]
    rw [Ne, Layout.blockN_inj fourBlocks_valid]
    omega
  bound := by
    intro j member
    change j < 4
    simp only [List.mem_cons, List.not_mem_nil, or_false] at member
    omega
  nodup := by
    rw [List.nodup_cons, List.mem_singleton]
    exact ⟨by omega, List.nodup_singleton i⟩
  tag := nofun

/-- The last two blocks are free. -/
theorem baSortList_hands_out_iff_lastTwo :
    SortsForShifts 64 fourBlocks 4096 (fourBlocks.blockN 4096 3) 2 (lastAnd 2)
        (freeSet 4 [3, 2] false) ↔ LastFits fourBlocks (freeSet 4 [3, 2] false) :=
  baSortList_hands_out_iff fourBlocks_valid (by decide) (lastAnd_list (by decide)) 2

/-- The second block and the last one are free: sorting puts a tag on the last one. -/
theorem lastBlock_leaves_page :
    ¬ ∀ (l : Layout) (p first used : Nat) (memory : Words) (indices : List Nat) (tagged : Bool),
      l.Valid → FreeList l p memory first indices tagged →
      SortsForShifts 64 l p first used memory (freeSet l.blocks indices tagged) := by
  intro sorts
  have list := @lastAnd_list 1 (by decide)
  have fits := (baSortList_hands_out_iff fourBlocks_valid (by decide) list 2).mp
    (sorts _ _ _ _ _ _ _ fourBlocks_valid list)
  revert fits
  unfold LastFits
  decide

end MallocSurvey.Gjalloc
