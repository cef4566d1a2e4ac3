import MallocSurvey.Tlsf.Freeing

/-! # The integrity checks

On a heap without loose blocks in which no two neighbours are free, the checks find nothing. -/

namespace MallocSurvey.Tlsf

open Library

variable {pools : List (Nat × Nat)} {control : Control} {pieces before after group : List Piece}
  {piece : Piece} {lists : Nat × Nat → List Nat} {index : Nat × Nat} {block place stop fuel : Nat}
  {status : Int} {nodes : List Nat}

/-- Neighbours of a free block are used. -/
theorem neighbours_used (coalesced : Coalesced (before ++ piece :: after))
    (isFree : piece.free = true) :
    (∀ left ∈ before.getLast?, left.free = false) ∧
      ∀ right ∈ after.head?, right.free = false := by
  obtain ⟨_, rest, border⟩ := List.isChain_append.mp coalesced
  constructor
  · intro left isLast
    have notBoth := border left isLast piece rfl
    rw [isFree] at notBoth
    simpa using notBoth
  · intro right isFirst
    have notBoth := (List.isChain_cons.mp rest).1 right isFirst
    rw [isFree] at notBoth
    simpa using notBoth

namespace Control

theorem insist_true (status : Int) {condition : Bool} (holds : condition = true) :
    insist status condition = status := if_pos holds

/-! ## `tlsf_check` -/

/-- A listed block is free, its neighbours are used, and the list is that of its class. -/
theorem checkBlock_spec (rep : Rep pools control pieces lists []) (coalesced : Coalesced pieces)
    (listed : block ∈ lists index) (status : Int) :
    control.checkBlock index block status = some status := by
  obtain ⟨piece, member, isPtr, isFree, _, isClass⟩ := (rep.listed index block).mp listed
  subst isPtr
  have least := rep.laid.free_len member isFree
  have isSize := rep.blockSize member
  have ownFree := rep.blockIsFree member
  rw [isFree] at ownFree
  have isNext := rep.blockNext member (by omega)
  obtain ⟨before, after, isSplit⟩ := List.append_of_mem member
  subst isSplit
  obtain ⟨lastUsed, firstUsed⟩ := neighbours_used coalesced isFree
  obtain ⟨next, rest, isCons, nextPtr⟩ := rep.exists_next (by omega)
  subst isCons
  have prevFree : control.blockIsPrevFree piece.ptr = false :=
    rep.blockIsPrevFree.trans (endFree_of_last lastUsed)
  have nextFree : control.blockIsFree next.ptr = false :=
    (rep.blockIsFree (by simp)).trans (firstUsed next rfl)
  have shifted := rep
  rw [show before ++ piece :: next :: rest = (before ++ [piece]) ++ next :: rest by simp] at shifted
  have nextPrev : control.blockIsPrevFree next.ptr = true := by
    rw [shifted.blockIsPrevFree, endFree_concat]
    exact isFree
  have isIndex : mappingInsert .bits64 piece.len = some index := by
    rw [← isClass]
    exact mappingInsert_eq .bits64 piece.len
  have large : decide (blockSizeMin .bits64 ≤ piece.len) = true := by
    rw [blockSizeMin_bits64]
    exact decide_eq_true least
  rw [← nextPtr] at isNext
  unfold checkBlock
  rw [isNext, some_bind, isSize, isIndex, some_bind, ownFree, prevFree, nextFree, nextPrev]
  have notFalse : decide (¬ false = true) = true := decide_eq_true Bool.false_ne_true
  dsimp only
  rw [insist_true _ rfl, insist_true _ notFalse, insist_true _ notFalse, insist_true _ rfl,
    insist_true _ large, insist_true _ (decide_eq_true rfl)]
  rfl

/-- The end of a list is followed. -/
theorem checkList_spec (rep : Rep pools control pieces lists []) (coalesced : Coalesced pieces)
    {prev : Nat}
    (linked : DoublyLinked control.address (control.field · .nextFree)
      (control.field · .prevFree) prev nodes)
    (listed : ∀ node ∈ nodes, node ∈ lists index) (enough : nodes.length < fuel) (status : Int) :
    control.checkList index fuel (nodes.headD control.address) status = some status := by
  induction nodes generalizing fuel prev with
  | nil =>
      obtain ⟨fuel, rfl⟩ := Nat.exists_eq_succ_of_ne_zero (Nat.ne_of_gt enough)
      unfold checkList
      rw [List.headD_nil, if_pos rfl]
  | cons node rest induction =>
      obtain ⟨fuel, rfl⟩ := Nat.exists_eq_succ_of_ne_zero (Nat.ne_zero_of_lt enough)
      have isListed := listed node List.mem_cons_self
      have notNull := rep.segregated.ne_null isListed
      have isNext : control.field node .nextFree = rest.headD control.address := linked.2.1
      unfold checkList
      rw [List.headD_cons, if_neg notNull, checkBlock_spec rep coalesced isListed, some_bind,
        isNext]
      refine induction linked.2.2 ?_ (Nat.lt_of_succ_lt_succ enough)
      exact fun other member => listed other (List.mem_cons_of_mem _ member)

/-- A list is not longer than the heap. -/
theorem list_length_le (rep : Rep pools control pieces lists []) (index : Nat × Nat) :
    (lists index).length ≤ pieces.length := by
  have subset : lists index ⊆ pieces.map Piece.ptr := by
    intro node isListed
    obtain ⟨piece, member, isPtr, _⟩ := (rep.listed index node).mp isListed
    exact isPtr ▸ List.mem_map_of_mem member
  have shorter := (rep.segregated.nodup index).length_le_of_subset subset
  rwa [List.length_map] at shorter

theorem checkClass_spec (rep : Rep pools control pieces lists []) (coalesced : Coalesced pieces)
    (isIndexed : Indexed index) (enough : pieces.length < fuel) (status : Int) :
    control.checkClass fuel status index = some status := by
  obtain ⟨level, part⟩ := index
  have small : level < 32 := isIndexed.1.trans (by decide)
  have isHead := rep.segregated.head (level, part)
  by_cases isEmpty : lists (level, part) = []
  · have noBit : (control.slBitmap level).getLsbD part = false :=
      Bool.eq_false_iff.mpr fun isSet => (rep.marked.second level part).mp isSet isEmpty
    have isNull : control.blocks (level, part) = control.address :=
      rep.segregated.head_eq_null_iff.mpr isEmpty
    unfold checkClass
    dsimp only
    rw [noBit, isNull, if_neg Bool.false_ne_true]
    rw [insist_true _ (decide_eq_true rfl), insist_true _ (decide_eq_true Bool.false_ne_true),
      ite_self]
  · have isBit : (control.slBitmap level).getLsbD part = true :=
      (rep.marked.second level part).mpr isEmpty
    have notZero : control.slBitmap level ≠ 0#32 := ne_zero_of_bit isBit
    have isFirst : control.flBitmap.getLsbD level = true :=
      (rep.marked.first level small).mpr notZero
    have notNull : control.blocks (level, part) ≠ control.address :=
      fun isNull => isEmpty (rep.segregated.head_eq_null_iff.mp isNull)
    have isListed := checkList_spec rep coalesced (rep.segregated.linked (level, part))
      (fun node member => member) ((list_length_le rep (level, part)).trans_lt enough) status
    unfold checkClass
    dsimp only
    rw [isBit, isFirst, if_pos rfl, if_pos rfl, insist_true _ (decide_eq_true notZero),
      insist_true _ (decide_eq_true notNull), isHead]
    exact isListed

theorem indexed_of_mem (member : index ∈ indices) : Indexed index := by
  obtain ⟨fl, isFl, isIndex⟩ := List.mem_flatMap.mp member
  obtain ⟨sl, isSl, rfl⟩ := List.mem_map.mp isIndex
  exact ⟨List.mem_range.mp isFl, List.mem_range.mp isSl⟩

/-- `tlsf_check` counts no error. -/
theorem tlsfCheck_eq (rep : Rep pools control pieces lists []) (coalesced : Coalesced pieces)
    (enough : pieces.length < fuel) : control.tlsfCheck fuel = some 0 := by
  have checked : ∀ classes : List (Nat × Nat), (∀ index ∈ classes, Indexed index) →
      classes.foldlM (control.checkClass fuel) 0 = some 0 := by
    intro classes indexed
    induction classes with
    | nil => rfl
    | cons index rest induction =>
        have isIndexed := indexed index List.mem_cons_self
        rw [List.foldlM_cons, checkClass_spec rep coalesced isIndexed enough, some_bind]
        exact induction fun other member => indexed other (List.mem_cons_of_mem _ member)
  exact checked indices fun index member => indexed_of_mem member

/-! ## `tlsf_check_pool` -/

/-- The blocks of a pool are walked from one on to the sentinel. -/
theorem walkPool_spec
    (rep : Rep pools control (before ++ (group ++ sentinel stop :: after)) lists [])
    (tiles : Tiles id 8 place group stop) (noSentinel : ∀ piece ∈ group, piece.len ≠ 0)
    (enough : group.length < fuel) (status : Int) :
    control.walkPool fuel place (endFree false before) status = some status := by
  induction group generalizing before place fuel with
  | nil =>
      obtain ⟨fuel, rfl⟩ := Nat.exists_eq_succ_of_ne_zero (Nat.ne_of_gt enough)
      have isMember : sentinel stop ∈ before ++ ([] ++ sentinel stop :: after) := by simp
      have isSize := rep.blockSize isMember
      have isStop : place = stop := tiles
      have isLast : control.blockIsLast place = true := by
        rw [blockIsLast, isStop]
        exact decide_eq_true isSize
      unfold walkPool
      rw [if_neg (by simp [isLast])]
  | cons piece rest induction =>
      obtain ⟨fuel, rfl⟩ := Nat.exists_eq_succ_of_ne_zero (Nat.ne_zero_of_lt enough)
      obtain ⟨isPlace, restTiles⟩ := tiles
      have isPlace : piece.ptr = place := isPlace
      have member : piece ∈ before ++ (piece :: rest ++ sentinel stop :: after) := by simp
      have notSentinel := noSentinel piece List.mem_cons_self
      have nonzero := (rep.laid.piece_bounds member).2.1
      have notLast : ¬ control.blockIsLast piece.ptr := by
        rw [blockIsLast, rep.blockSize member, decide_eq_true_eq]
        exact notSentinel
      have isPrevFree : control.blockIsPrevFree piece.ptr = endFree false before :=
        rep.blockIsPrevFree
      have isFree := rep.blockIsFree member
      have isNext := rep.blockNext member notSentinel
      have shifted := rep
      rw [show before ++ (piece :: rest ++ sentinel stop :: after) =
        (before ++ [piece]) ++ (rest ++ sentinel stop :: after) by simp] at shifted
      have restNoSentinel : ∀ piece ∈ rest, piece.len ≠ 0 :=
        fun other isOther => noSentinel other (List.mem_cons_of_mem _ isOther)
      have walked := induction shifted restTiles restNoSentinel (Nat.lt_of_succ_lt_succ enough)
      rw [endFree_concat] at walked
      unfold walkPool
      rw [← isPlace, if_pos ⟨by omega, notLast⟩, isPrevFree, insist_true _ (decide_eq_true rfl),
        isNext, some_bind, isFree, isPlace, ← Nat.add_assoc]
      rw [← Nat.add_assoc] at walked
      exact walked

/-- `tlsf_check_pool` counts no error for a pool. -/
theorem tlsfCheckPool_eq (rep : Rep pools control pieces lists []) {pool : Nat × Nat}
    (isPool : pool ∈ pools) (enough : pieces.length < fuel) :
    control.tlsfCheckPool fuel (pool.1 + 8) = some 0 := by
  obtain ⟨place, stop⟩ := pool
  obtain ⟨first, others, isSplit⟩ := List.append_of_mem isPool
  have pooled := rep.laid.pooled
  rw [isSplit] at pooled
  obtain ⟨before, group, after, isPieces, pooledBefore, tiles, noSentinel, _⟩ := pooled.split
  subst isPieces
  have bounds := rep.laid.bounds (place, stop) isPool
  have fits := bounds.fits
  have isMember : sentinel stop ∈ before ++ (group ++ sentinel stop :: after) := by simp
  have placeLe : place ≤ stop := Nat.le.intro tiles.stop_eq.symm
  have isBlock : subWord .bits64 (place + 8) 8 = place := by
    dsimp only at fits
    rw [subWord_of_le (by omega) (by omega), Nat.add_sub_cancel]
  have shorter : group.length < fuel := by
    simp only [List.length_append, List.length_cons] at enough
    omega
  have walked := walkPool_spec rep tiles noSentinel shorter 0
  rw [endFree_of_pooled pooledBefore] at walked
  unfold tlsfCheckPool
  rw [blockHeaderOverhead_bits64, isBlock]
  exact walked

end Control

end MallocSurvey.Tlsf
